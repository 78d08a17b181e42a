import Workflow.Graph.Basic

/-!
# Drafts

A draft is a graph that is being built or edited, together with the ids that are
still to be given out.  Nodes and edges are numbered apart, each from one, and a
number is never used again.
-/

namespace Workflow

/-- How the numbers of nodes and of edges are written as ids.  Different numbers have
different ids. -/
structure Naming where
  node : Nat -> String
  edge : Nat -> String
  node_injective : Function.Injective node
  edge_injective : Function.Injective edge

namespace Naming

theorem sign_append_injective (sign : String) :
    Function.Injective fun n : Nat => sign ++ toString n := by
  intro m n h
  have hdigits : (toString m).toList = (toString n).toList := by
    have h := congrArg String.toList h
    simpa only [String.toList_append, List.append_cancel_left_eq] using h
  simp only [Nat.toString_eq_repr, Nat.toList_repr] at hdigits
  rw [← Nat.ofDigitChars_ten_toDigits (n := m), hdigits, Nat.ofDigitChars_ten_toDigits]

def short : Naming where
  node n := "#" ++ toString n
  edge n := "#e" ++ toString n
  node_injective := sign_append_injective "#"
  edge_injective := sign_append_injective "#e"

/-- Digits behind zeros, to a width of twelve. -/
def padded (n : Nat) : String :=
  let digits := Nat.toDigits 10 n
  String.ofList (List.replicate (12 - digits.length) '0' ++ digits)

theorem padded_injective : Function.Injective padded := by
  intro m n h
  have hvalue := congrArg (fun s => Nat.ofDigitChars 10 s.toList 0) h
  simpa only [padded, String.toList_ofList, Nat.ofDigitChars_append,
    Nat.ofDigitChars_replicate_zero, Nat.mul_zero, Nat.ofDigitChars_ten_toDigits] using hvalue

theorem append_padded_injective (head : String) :
    Function.Injective fun n => head ++ padded n := by
  intro m n h
  have h := congrArg String.toList h
  simp only [String.toList_append, List.append_cancel_left_eq] at h
  exact padded_injective (String.toList_injective h)

/-- Ids in five groups, as they are common for identifiers that are unique. -/
def grouped : Naming where
  node n := "00000000-0000-4000-8000-" ++ padded n
  edge n := "00000000-0000-4000-9000-" ++ padded n
  node_injective := append_padded_injective _
  edge_injective := append_padded_injective _

end Naming

structure Supply where
  naming : Naming := .short
  /-- The number of the last node created. -/
  nodes : Nat := 0
  /-- The number of the last edge created. -/
  edges : Nat := 0

structure Draft where
  graph : Graph := .empty
  supply : Supply := {}

namespace Draft

def modify (d : Draft) (f : Graph -> Graph) : Draft :=
  { d with graph := f d.graph }

/-- Creates a node; answers its id. -/
def addNode (d : Draft) (parent : Option String) (content : Content) : String × Draft :=
  let n := d.supply.nodes + 1
  let id := d.supply.naming.node n
  (id,
    { graph := { d.graph with nodes := d.graph.nodes ++ [{ id, parent, content }] }
      supply := { d.supply with nodes := n } })

def addEdge (d : Draft) (source target : String) (kind : EdgeKind)
    (tag : Option BranchTag := none) (hidden : Bool := false) : Draft :=
  let n := d.supply.edges + 1
  let edge : Edge := { id := d.supply.naming.edge n, source, target, kind, tag, hidden }
  { graph := { d.graph with edges := d.graph.edges ++ [edge] }
    supply := { d.supply with edges := n } }

/-!
# Bodies
-/

/-- The edges from the start to the end of an empty body: one for a loop, and one for
each branch of a conditional. -/
def addBodyEdges (d : Draft) (container start marker : String) : Block -> Draft
  | .leaf _ => d
  | .loop _ => d.addEdge start marker .plain
  | .conditional c =>
      c.branches.foldl
        (fun d b =>
          d.addEdge start marker .branch (some ⟨container, b.id⟩) (b.id != c.active))
        d

def addBody (d : Draft) (container : String) (b : Block) : Draft :=
  let (start, d) := d.addNode (some container) .start
  let (marker, d) := d.addNode (some container) .insertionMarker
  d.addBodyEdges container start marker b

/-!
# The empty workflow
-/

/-- A start marker followed by an insertion marker. -/
def emptyState (s : Supply) : Draft :=
  let (start, d) := Draft.addNode { supply := s } none .start
  let (marker, d) := d.addNode none .insertionMarker
  d.addEdge start marker .plain

end Draft
end Workflow
