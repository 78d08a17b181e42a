import Workflow.Graph.Json
import Workflow.Graph.Order
import Workflow.Table

/-!
# Indexed graphs

A graph is searched by an index: the position of each node by its id, and the ids inside each
container.  The index follows from the nodes alone, so it is not part of what a graph is, and
whoever puts a graph together from its nodes and edges builds the index again.
-/

namespace Workflow

/-!
# The index
-/

structure Index where
  positions : Table Nat
  families : Table (List String)

namespace Index

/-- The ids inside a container, as far as a table lists them. -/
def listed (families : Table (List String)) (parent : String) : List String :=
  (families.get? parent).getD []

def enroll (families : Table (List String)) (n : Node) : Table (List String) :=
  match n.parent with
  | none => families
  | some p => families.insert p (listed families p ++ [n.id])

def positionsIn (start : Nat) (t : Table Nat) (nodes : List Node) : Table Nat :=
  (nodes.zipIdx start).foldl (fun t entry => t.insert entry.1.id entry.2) t

def ofNodes (nodes : List Node) : Index where
  positions := positionsIn 0 .empty nodes
  families := nodes.foldl enroll .empty

/-!
# What the tables hold

Both tables are built in one pass, so each invariant is about the nodes that were passed.
-/

/-- Every id is at the position of the last of these nodes that has it. -/
def Locates (t : Table Nat) (nodes : List Node) : Prop :=
  ∀ id, (∀ i, t.get? id = some i -> i < nodes.length) ∧
    (t.get? id).bind (fun i => nodes[i]?) = nodes.reverse.find? fun n => n.id == id

theorem locates_empty : Locates .empty [] := by
  intro id
  simp

theorem Locates.insert {t : Table Nat} {nodes : List Node} (h : Locates t nodes) (n : Node) :
    Locates (t.insert n.id nodes.length) (nodes ++ [n]) := by
  intro id
  rw [Table.get?_insert, List.reverse_append, List.reverse_singleton, List.singleton_append,
    List.find?_cons, List.length_append, List.length_singleton]
  by_cases hid : id = n.id
  · subst hid
    simp
  · rcases h id with ⟨hbound, hfind⟩
    have hne : (n.id == id) = false := beq_false_of_ne (Ne.symm hid)
    rw [if_neg hid, hne, ← hfind]
    constructor
    · intro i hi
      exact Nat.lt_succ_of_lt (hbound i hi)
    · cases hi : t.get? id with
      | none => rfl
      | some i => exact List.getElem?_append_left (hbound i hi)

theorem Locates.positionsIn {t : Table Nat} {passed : List Node} (h : Locates t passed)
    (nodes : List Node) : Locates (positionsIn passed.length t nodes) (passed ++ nodes) := by
  -- The table changes with every node, so the invariant is kept for whatever was passed.
  induction nodes generalizing t passed with
  | nil => simpa [Index.positionsIn] using h
  | cons n rest ih =>
      have hrest := ih (h.insert n)
      rw [List.length_append, List.length_singleton, List.append_assoc] at hrest
      exact hrest

theorem locates_ofNodes (nodes : List Node) : Locates (ofNodes nodes).positions nodes :=
  locates_empty.positionsIn nodes

theorem listed_enroll (families : Table (List String)) (n : Node) (parent : String) :
    listed (enroll families n) parent =
      listed families parent ++ (if n.parent == some parent then [n.id] else []) := by
  unfold enroll
  cases hp : n.parent with
  | none => simp
  | some p =>
      by_cases heq : p = parent
      · simp [listed, heq]
      · simp [listed, heq, Ne.symm heq]

theorem listed_foldl_enroll (families : Table (List String)) (nodes : List Node)
    (parent : String) : listed (nodes.foldl enroll families) parent =
      listed families parent ++ (nodes.filter fun n => n.parent == some parent).map Node.id := by
  induction nodes generalizing families with
  | nil => simp
  | cons n rest ih =>
      rw [List.foldl_cons, ih, listed_enroll, List.append_assoc, List.filter_cons]
      split <;> rfl

end Index

/-!
# Graphs with their index
-/

/-- Why a look-up has no answer. -/
inductive GraphError where
  | notFound (id : String)
  deriving DecidableEq, Repr

def GraphError.message : GraphError -> String
  | notFound id => s!"node not found: {id}"

/-- How far a search in containers has come: the ids it has yet to look into, and those it found. -/
structure Frontier where
  queue : List String
  found : List String
  deriving DecidableEq, Repr

/-- A graph with the index of its nodes, which is built again whenever they change. -/
structure Indexed extends Graph where
  index : Index
  index_eq : index = Index.ofNodes nodes

namespace Indexed

def ofParts (nodes : List Node) (edges : List Edge) : Indexed where
  nodes := nodes
  edges := edges
  index := Index.ofNodes nodes
  index_eq := rfl

def ofGraph (g : Graph) : Indexed :=
  ofParts g.nodes g.edges

theorem ext_toGraph {x y : Indexed} (h : x.toGraph = y.toGraph) : x = y := by
  cases x with
  | mk g index hindex =>
      cases y with
      | mk g' index' hindex' =>
          cases h
          rw [← hindex'] at hindex
          cases hindex
          rfl

theorem ofGraph_toGraph (x : Indexed) : ofGraph x.toGraph = x :=
  ext_toGraph rfl

variable (x : Indexed)

/-!
# Dumps
-/

/-- The nodes and the edges; the index is not written. -/
def dump : Json :=
  x.toGraph.toJson

def ofDump? (v : Json) : Option Indexed :=
  (Graph.ofJson? v).map ofGraph

/-!
# Looking nodes up
-/

def contains (id : String) : Bool :=
  (x.index.positions.get? id).isSome

def node? (id : String) : Option Node :=
  (x.index.positions.get? id).bind fun i => x.nodes[i]?

theorem node?_eq (id : String) : x.node? id = x.toGraph.node? id := by
  rw [node?, x.index_eq]
  exact (Index.locates_ofNodes x.nodes id).2

theorem isSome_node? (id : String) : (x.node? id).isSome = x.contains id := by
  unfold node? contains
  cases hi : x.index.positions.get? id with
  | none => rfl
  | some i =>
      rw [x.index_eq] at hi
      have hlt := (Index.locates_ofNodes x.nodes id).1 i hi
      rw [Option.bind_some, List.getElem?_eq_getElem hlt]
      rfl

theorem contains_eq (id : String) : x.contains id = x.toGraph.contains id := by
  rw [← isSome_node?, node?_eq, Graph.node?, Graph.contains, Bool.eq_iff_iff, List.find?_isSome,
    List.any_eq_true]
  simp only [List.mem_reverse]

def childIds (parent : String) : List String :=
  Index.listed x.index.families parent

theorem childIds_eq (parent : String) : x.childIds parent = x.toGraph.childIds parent := by
  rw [childIds, x.index_eq]
  exact Index.listed_foldl_enroll .empty x.nodes parent

/-- The nodes inside a container; there is no answer for an id that no node has. -/
def children? (parent : String) : Option (List Node) :=
  (x.node? parent).map fun _ => (x.childIds parent).filterMap x.node?

theorem children?_eq (parent : String) : x.children? parent =
    if x.toGraph.contains parent then some (x.toGraph.children parent) else none := by
  have hnode : x.node? = x.toGraph.node? := funext x.node?_eq
  rw [← contains_eq, ← isSome_node?, children?, Graph.children, childIds_eq, hnode]
  cases x.toGraph.node? parent <;> rfl

def getNode (id : String) : Except GraphError Node :=
  match x.node? id with
  | some n => .ok n
  | none => .error (.notFound id)

/-!
# Nesting
-/

/-- Takes an id off the queue, and puts what stands in it both on the list and at the end of the
queue.  A search goes on until the queue is empty. -/
def advance? : Frontier -> Option Frontier
  | ⟨[], _⟩ => none
  | ⟨id :: rest, found⟩ => some ⟨rest ++ x.childIds id, found ++ x.childIds id⟩

/-!
# Chains
-/

/-- Whether a node is entered by an edge from another node of its scope. -/
def isEntered (s : Scope) (id : String) : Bool :=
  x.edges.any fun e =>
    e.target == id && s.admits e && (x.node? e.source).any fun n => n.parent == s.parent

def head? (s : Scope) : Option String :=
  match x.startMarker? s.parent with
  | some n => some n.id
  | none => (x.nodes.find? fun n => n.parent == s.parent && !x.isEntered s n.id).map Node.id

def chain (s : Scope) : List String :=
  x.follow s (x.edges.length + 1) [] (x.head? s)

theorem head?_eq (s : Scope) : x.head? s = x.toGraph.head? s := by
  have hentered : x.isEntered s = x.toGraph.isEntered s := by
    funext id
    simp only [isEntered, Graph.isEntered, node?_eq]
  rw [head?, hentered]
  rfl

theorem chain_eq (s : Scope) : x.chain s = x.toGraph.chain s := by
  rw [chain, head?_eq, Graph.chain]

def scopeOf? (id : String) : Option Scope :=
  match x.node? id with
  | none => none
  | some n =>
      match n.parent with
      | none => some .root
      | some parent =>
          match x.node? parent with
          | none => none
          | some container =>
              match container.conditional? with
              | none => some (.body parent)
              | some c =>
                  (c.branchIds.map (Scope.ofBranch parent)).find? fun s =>
                    (x.chain s).contains id

theorem scopeOf?_eq (id : String) : x.scopeOf? id = x.toGraph.scopeOf? id := by
  have hnode : x.node? = x.toGraph.node? := funext x.node?_eq
  have hchain : x.chain = x.toGraph.chain := funext x.chain_eq
  rw [scopeOf?, hnode, hchain]
  rfl

/-!
# The order
-/

def bodyIds (id : String) : List String :=
  match (x.node? id).bind Node.block? with
  | none => []
  | some b => (Graph.bodyScopes id b).flatMap x.chain

theorem bodyIds_eq (id : String) : x.bodyIds id = x.toGraph.bodyIds id := by
  have hchain : x.chain = x.toGraph.chain := funext x.chain_eq
  rw [bodyIds, node?_eq, hchain]
  rfl

/-- Lists the ids of an agenda and, right after each, the ids inside it. -/
def visit (agenda order : List String) : List String :=
  match agenda with
  | [] => order
  | id :: rest =>
      if order.contains id then visit rest order
      else visit (x.bodyIds id ++ rest) (order ++ [id])
  termination_by x.toGraph.visitsLeft agenda order
  decreasing_by
    · exact Nat.lt_succ_self _
    · next hnew =>
        rw [bodyIds_eq]
        exact Graph.visitsLeft_lt rest (Bool.not_eq_true _ ▸ hnew)

theorem visit_eq (agenda order : List String) :
    x.visit agenda order = x.toGraph.visit agenda order := by
  fun_induction Indexed.visit x agenda order with
  | case1 order => rw [Graph.visit]
  | case2 order id rest hseen ih => rw [Graph.visit, if_pos hseen, ih]
  | case3 order id rest hnew ih => rw [Graph.visit, if_neg hnew, ih, bodyIds_eq]

def order : List String :=
  x.appendUnlisted (x.visit (x.chain .root) [])

theorem order_eq : x.order = x.toGraph.order := by
  rw [order, visit_eq, chain_eq, Graph.order]

end Indexed
end Workflow
