import Workflow.Proofs.Edit.Placed
import Workflow.Proofs.Label
import Workflow.Proofs.Run.WellFormed

/-!
# Where blocks can be inserted

The anchors that take a block are those that name two neighbours on the chain of a scope.  The
block then stands between the two, and nothing else has moved.
-/

namespace Workflow

/-- The ends of the anchor follow one another on the chain of the scope that its parent and
its branch name. -/
def Anchor.MarksGap (a : Anchor) (g : Graph) : Prop :=
  a.place ∈ g.scopes ∧
    ∃ p n, a.previous = some p ∧ a.next = some n ∧ Adjacent (g.chain a.place) p n

/-- A block with an empty body is new in a graph, between two neighbours of a scope. -/
structure Graph.Gains (g g' : Graph) (s : Scope) (p n id : String) (b : Block) : Prop where
  fresh : ∀ m ∈ g.nodes, m.id ≠ id
  nodes : ∃ label markers, label ∉ g.labels ∧
    g'.nodes = g.nodes ++ ⟨id, s.parent, .block { label } b⟩ :: markers ∧
    ∀ m ∈ markers, m.parent = some id ∧ m.isBlock = false
  scopes : ∀ t, t ∈ g'.scopes <-> t ∈ g.scopes ∨ t ∈ bodyScopes id b
  chain : ∃ u v, g.chain s = u ++ p :: n :: v ∧ g'.chain s = u ++ p :: id :: n :: v
  others : ∀ t ∈ g.scopes, t ≠ s -> g'.chain t = g.chain t
  bodies : ∀ t ∈ bodyScopes id b, ∃ start marker, g'.chain t = [start, marker] ∧
    ⟨start, some id, .start⟩ ∈ g'.nodes ∧ ⟨marker, some id, .insertionMarker⟩ ∈ g'.nodes

namespace Draft

variable {d : Draft} {run : Scope -> List String} {a : Anchor}

theorem Laid.isValid_iff_marksGap (h : d.Laid run) :
    a.isValid d.graph <-> a.MarksGap d.graph := by
  rw [Anchor.isValid_iff h.shape, Anchor.MarksGap, Graph.mem_scopes]
  refine and_congr_right fun hs => ?_
  rw [Graph.chain_eq h.shape hs]

theorem Laid.chain_insertBlock (h : d.Laid run) (hvalid : a.isValid d.graph) {p n : String}
    {u v : List String} (hp : a.previous = some p) (hn : a.next = some n)
    (hrun : run a.place = u ++ p :: n :: v) (stem : String) (kind : Kind) {t : Scope}
    (ht : d.graph.shape.HasScope t) : (d.insertBlock stem kind a).2.graph.chain t =
      Function.update run a.place (u ++ p :: d.supply.upcoming 1 :: n :: v) t := by
  have hlaid := (h.insertBlock_of_run hvalid hp hn hrun stem kind).shape
  rw [Graph.chain_eq hlaid ((hasScope_insertBlock hvalid hp hn stem kind).2 (Or.inl ht)),
    insertRun_of_hasScope h.issued ht]

theorem Laid.gains_insertBlock (h : d.Laid run) (hgap : a.MarksGap d.graph) (stem : String)
    (kind : Kind) : ∃ p n id, a.previous = some p ∧ a.next = some n ∧
      (d.insertBlock stem kind a).1 = [id] ∧
      d.graph.Gains (d.insertBlock stem kind a).2.graph a.place p n id (.fresh kind) := by
  have hvalid := h.isValid_iff_marksGap.2 hgap
  obtain ⟨hs, p, n, hp, hn, u, v, hrun⟩ := (Anchor.isValid_iff h.shape).1 hvalid
  have hnodes := nodes_insertBlock hvalid hp hn stem kind
  have hscope : ∀ t, _ := fun t => hasScope_insertBlock hvalid hp hn stem kind (t := t)
  have hlaid := (h.insertBlock_of_run hvalid hp hn hrun stem kind).shape
  refine ⟨p, n, d.supply.upcoming 1, hp, hn, ?_, ?_⟩
  · rw [insertBlock_eq hvalid hp hn]
  constructor
  case fresh =>
    intro m hm hid
    apply not_mem_upcoming h.issued Nat.one_pos
    rw [Graph.ids_shape, ← hid]
    exact List.mem_map_of_mem hm
  case nodes =>
    refine ⟨_, _, Label.generate_not_mem stem d.graph.labels, hnodes, fun m hm => ?_⟩
    obtain ⟨-, hparent, -, hblock⟩ := mem_bodyNodes hm
    exact ⟨hparent, by rw [Node.isBlock, hblock]; rfl⟩
  case scopes =>
    intro t
    rw [Graph.mem_scopes, Graph.mem_scopes, hscope, Block.scopes_role]
  case chain =>
    refine ⟨u, v, (Graph.chain_eq h.shape hs).trans hrun, ?_⟩
    rw [h.chain_insertBlock hvalid hp hn hrun stem kind hs, Function.update_self]
  case others =>
    intro t ht hts
    rw [Graph.mem_scopes] at ht
    rw [h.chain_insertBlock hvalid hp hn hrun stem kind ht, Function.update_of_ne hts,
      Graph.chain_eq h.shape ht]
  case bodies =>
    intro t ht
    rw [← Block.scopes_role] at ht
    have hcontainer := Role.isContainer_of_mem_scopes ht
    rw [Block.isContainer_role] at hcontainer
    refine ⟨d.supply.upcoming 2, d.supply.upcoming 3, ?_, ?_, ?_⟩
    · rw [Graph.chain_eq hlaid ((hscope t).2 (Or.inr ht)), Shape.insertRun,
        if_pos (Role.parent_of_mem_scopes ht)]
    · simp [hnodes, bodyNodes, hcontainer]
    · simp [hnodes, bodyNodes, hcontainer]

/-- A block is inserted exactly when the anchor marks a gap, and exactly there. -/
theorem insertBlock_iff_marksGap (h : d.Reachable) (stem : String) (kind : Kind) (a : Anchor) :
    ((∃ id, (d.insertBlock stem kind a).1 = [id]) <-> a.MarksGap d.graph) ∧
    (¬ a.MarksGap d.graph -> d.insertBlock stem kind a = ([], d)) ∧
    ∀ id, (d.insertBlock stem kind a).1 = [id] ->
      ∃ p n, a.previous = some p ∧ a.next = some n ∧
        d.graph.Gains (d.insertBlock stem kind a).2.graph a.place p n id (.fresh kind) := by
  obtain ⟨run, hlaid⟩ := h.laid
  have hrefused : ¬ a.MarksGap d.graph -> d.insertBlock stem kind a = ([], d) := by
    intro hgap
    rw [insertBlock, if_neg (mt hlaid.isValid_iff_marksGap.1 hgap)]
  have haccepted : ∀ id, (d.insertBlock stem kind a).1 = [id] -> a.MarksGap d.graph := by
    intro id hid
    by_contra hgap
    rw [hrefused hgap] at hid
    cases hid
  refine ⟨⟨?_, fun hgap => ?_⟩, hrefused, fun id hid => ?_⟩
  · rintro ⟨id, hid⟩
    exact haccepted id hid
  · obtain ⟨-, -, id, -, -, hid, -⟩ := hlaid.gains_insertBlock hgap stem kind
    exact ⟨id, hid⟩
  · obtain ⟨p, n, id', hp, hn, hid', hgains⟩ :=
      hlaid.gains_insertBlock (haccepted id hid) stem kind
    cases hid.symm.trans hid'
    exact ⟨p, n, hp, hn, hgains⟩

/-- In a loop in a branch, a conditional goes behind a task; behind the end of the loop nothing
can go. -/
theorem insertBlock_iff_marksGap_nested :
    ∃ d : Draft, d.Reachable ∧ d.graph.chain (.body "#6") = ["#7", "#9", "#8"] ∧
      (d.insertBlock "block" .conditional ⟨some "#9", some "#8", some "#6", none⟩).1 = ["#10"] ∧
      d.graph.Gains
        (d.insertBlock "block" .conditional ⟨some "#9", some "#8", some "#6", none⟩).2.graph
        (.body "#6") "#9" "#8" "#10" (.fresh .conditional) ∧
      ¬ Anchor.MarksGap ⟨some "#8", none, some "#6", none⟩ d.graph := by
  have hreachable : ((emptyState {}).applyAll nestedCommands).Reachable :=
    Edited.applyAll (.start (Or.inl ⟨{}, rfl⟩)) _
  refine ⟨_, hreachable, by decide +kernel, by decide +kernel, ?_, ?_⟩
  · obtain ⟨p, n, hp, hn, hgains⟩ := (insertBlock_iff_marksGap hreachable "block" .conditional
      ⟨some "#9", some "#8", some "#6", none⟩).2.2 "#10" (by decide +kernel)
    cases hp
    cases hn
    exact hgains
  · rw [← (insertBlock_iff_marksGap hreachable "block" .task _).1]
    rintro ⟨id, hid⟩
    have hnone : (((emptyState {}).applyAll nestedCommands).insertBlock "block" .task
        ⟨some "#8", none, some "#6", none⟩).1 = [] := by
      decide +kernel
    cases hid.symm.trans hnone

end Draft
end Workflow
