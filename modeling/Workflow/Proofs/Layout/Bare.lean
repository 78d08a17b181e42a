import Mathlib.Data.List.Basic
import Workflow.Layout.Basic

/-!
# Graphs without attributes

Chains, outlines and layouts look at the edges of a graph, at the ids and parents of its nodes, at
the kinds of its blocks and at the branches of its conditionals.  What else a block carries can be
taken away without changing them; so graphs that are equal up to the signs of zeros, or that differ
in labels and attributes, are drawn alike.
-/

namespace Workflow

/-!
# Taking attributes away
-/

/-- A block with its kind, the ids of its branches and the one that is shown. -/
def Block.bare : Block -> Block
  | .leaf l => .fresh l.kind
  | .loop _ => .loop {}
  | .conditional c => .conditional ⟨c.branchIds.map fun id => { id, label := "" }, c.active⟩

def Content.bare : Content -> Content
  | .block _ b => .block { label := "" } b.bare
  | c => c

def Node.bare (n : Node) : Node :=
  { n with content := n.content.bare }

def Graph.bare (g : Graph) : Graph :=
  { g with nodes := g.nodes.map Node.bare }

theorem Node.block?_bare (n : Node) : n.bare.block? = n.block?.map Block.bare := by
  obtain ⟨id, parent, content⟩ := n
  cases content <;> rfl

theorem Node.isStart_bare (n : Node) : n.bare.isStart = n.isStart := by
  obtain ⟨id, parent, content⟩ := n
  cases content <;> rfl

/-!
# Chains and outlines
-/

namespace Graph

variable (g : Graph)

theorem map_id_bare : g.bare.nodes.map Node.id = g.nodes.map Node.id :=
  List.map_map ..

theorem node?_bare (id : String) : g.bare.node? id = (g.node? id).map Node.bare := by
  rw [node?, bare, ← List.map_reverse, List.find?_map]
  rfl

theorem block?_bare (id : String) : g.bare.block? id = (g.block? id).map Block.bare := by
  rw [block?, node?_bare, block?]
  cases g.node? id with
  | none => rfl
  | some n => exact n.block?_bare

theorem isEntered_bare (s : Scope) (id : String) : g.bare.isEntered s id = g.isEntered s id := by
  have hsource : ∀ e : Edge, ((g.bare.node? e.source).any fun n => n.parent == s.parent) =
      (g.node? e.source).any fun n => n.parent == s.parent := by
    intro e
    rw [node?_bare, Option.any_map]
    rfl
  simp only [isEntered, hsource]
  rfl

theorem head?_bare (s : Scope) : g.bare.head? s = g.head? s := by
  have hstart : g.bare.startMarker? s.parent = (g.startMarker? s.parent).map Node.bare := by
    have hsame : (fun n : Node => n.parent == s.parent && n.isStart) ∘ Node.bare =
        fun n => n.parent == s.parent && n.isStart := by
      funext n
      exact congrArg _ n.isStart_bare
    rw [startMarker?, bare, List.find?_map, hsame]
    rfl
  have hfirst : g.bare.nodes.find? (fun n => n.parent == s.parent && !g.bare.isEntered s n.id) =
      (g.nodes.find? fun n => n.parent == s.parent && !g.isEntered s n.id).map Node.bare := by
    simp only [isEntered_bare]
    rw [bare, List.find?_map]
    rfl
  rw [head?, head?, hstart, hfirst]
  cases g.startMarker? s.parent with
  | some n => rfl
  | none => exact Option.map_map ..

theorem follow_bare (s : Scope) (fuel : Nat) : ∀ (seen : List String) (next : Option String),
    g.bare.follow s fuel seen next = g.follow s fuel seen next := by
  induction fuel with
  | zero => exact fun _ _ => rfl
  | succ fuel ih =>
      intro seen next
      cases next with
      | none => rfl
      | some id =>
          have hnext : g.bare.next? s id = g.next? s id := rfl
          rw [follow, follow, hnext, ih]

theorem chain_bare (s : Scope) : g.bare.chain s = g.chain s := by
  rw [chain, head?_bare, follow_bare]
  rfl

theorem shownScope?_bare (id : String) : g.bare.shownScope? id = g.shownScope? id := by
  rw [shownScope?, block?_bare, shownScope?]
  cases g.block? id with
  | none => rfl
  | some b =>
      cases b with
      | leaf l => cases l <;> rfl
      | loop a => rfl
      | conditional c => rfl

theorem enterEach_bare (inside : List String -> List String -> List Outline × List String)
    (chain : List String) : ∀ entered,
    g.bare.enterEach inside entered chain = g.enterEach inside entered chain := by
  induction chain with
  | nil => exact fun _ => rfl
  | cons id rest ih =>
      intro entered
      simp only [enterEach, shownScope?_bare, chain_bare, ih]

theorem enterTo_bare (levels : Nat) : g.bare.enterTo levels = g.enterTo levels := by
  induction levels with
  | zero => rfl
  | succ levels ih =>
      funext entered chain
      rw [enterTo, enterTo, ih, enterEach_bare]

theorem outline_bare : g.bare.outline = g.outline := by
  have hlength : g.bare.nodes.length = g.nodes.length := List.length_map ..
  rw [outline, outline, enterTo_bare, chain_bare, hlength]

theorem contains_bare (id : String) : g.bare.contains id = g.contains id :=
  List.any_map ..

end Graph

/-!
# Layouts
-/

namespace Layout

variable {α : Type} [Length α]

omit [Length α] in
theorem measuredSize_bare (s : LayoutSettings α) (g : Graph) (sizes : Table (Size α)) :
    measuredSize s g.bare sizes = measuredSize s g sizes := by
  funext id
  rw [measuredSize, measuredSize, Graph.block?_bare, Option.isSome_map]

theorem ofGraph_bare (s : LayoutSettings α) (g : Graph) (sizes : Table (Size α)) :
    ofGraph s g.bare sizes = ofGraph s g sizes := by
  simp only [ofGraph, measuredSize_bare, Graph.outline_bare, Graph.map_id_bare]

end Layout

/-!
# Graphs that are equal

Equality compares numbers by value, so graphs that are equal may still differ in the signs of
zeros among their attributes.
-/

theorem Leaf.kind_eq_of_beq {l l' : Leaf} (h : l == l') : l.kind = l'.kind := by
  have hindex : l.ctorIdx = l'.ctorIdx := by
    have h : instBEqLeaf.beq l l' = true := h
    unfold instBEqLeaf.beq at h
    split at h
    · assumption
    · cases h
  have hkind : ∀ l : Leaf,
      l.kind = ((Kind.all.filter fun k => !k.isContainer)[l.ctorIdx]?).getD .task := by
    intro l
    cases l <;> rfl
  rw [hkind l, hkind l', hindex]

theorem Block.bare_eq_of_beq {b b' : Block} (h : b == b') : b.bare = b'.bare := by
  cases b with
  | leaf l =>
      cases b' with
      | leaf l' =>
          have h : (l == l') = true := h
          rw [bare, bare, Leaf.kind_eq_of_beq h]
      | _ => cases h
  | loop a =>
      cases b' with
      | loop a' => rfl
      | _ => cases h
  | conditional c =>
      cases b' with
      | conditional c' =>
          have h : (c == c') = true := h
          rw [eq_of_beq h]
      | _ => cases h

theorem Content.bare_eq_of_beq {c c' : Content} (h : c == c') : c.bare = c'.bare := by
  cases c with
  | start =>
      cases c' with
      | start => rfl
      | _ => cases h
  | insertionMarker =>
      cases c' with
      | insertionMarker => rfl
      | _ => cases h
  | block heading b =>
      cases c' with
      | block heading' b' =>
          have h : (heading == heading' && b == b') = true := h
          rw [Bool.and_eq_true] at h
          rw [bare, bare, Block.bare_eq_of_beq h.2]
      | _ => cases h

theorem Node.bare_eq_of_beq {n n' : Node} (h : n == n') : n.bare = n'.bare := by
  obtain ⟨id, parent, content⟩ := n
  obtain ⟨id', parent', content'⟩ := n'
  have h : (id == id' && (parent == parent' && content == content')) = true := h
  simp only [Bool.and_eq_true, beq_iff_eq] at h
  obtain ⟨rfl, rfl, hcontent⟩ := h
  exact congrArg (Node.mk id parent) (Content.bare_eq_of_beq hcontent)

theorem map_bare_eq_of_beq {nodes nodes' : List Node} (h : nodes == nodes') :
    nodes.map Node.bare = nodes'.map Node.bare := by
  induction nodes generalizing nodes' with
  | nil =>
      cases nodes' with
      | nil => rfl
      | cons n' rest' => simp at h
  | cons n rest ih =>
      cases nodes' with
      | nil => simp at h
      | cons n' rest' =>
          rw [List.cons_beq_cons, Bool.and_eq_true] at h
          rw [List.map_cons, List.map_cons, Node.bare_eq_of_beq h.1, ih h.2]

theorem Graph.bare_eq_of_beq {g g' : Graph} (h : g == g') : g.bare = g'.bare := by
  obtain ⟨nodes, edges⟩ := g
  obtain ⟨nodes', edges'⟩ := g'
  have h : (nodes == nodes' && edges == edges') = true := h
  rw [Bool.and_eq_true] at h
  exact congrArg₂ Graph.mk (map_bare_eq_of_beq h.1) (eq_of_beq h.2)

end Workflow
