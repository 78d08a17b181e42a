import Workflow.Proofs.Edit.Placed
import Workflow.Proofs.Edit.Subtree
import Workflow.Proofs.Label
import Workflow.Proofs.Reference.Graph

/-!
# A block that comes and goes

What is nested in a block that was just inserted is what came with it.  When the block is removed
again all that was there is left, and its neighbours are joined by one edge.
-/

namespace Workflow
namespace Graph

variable {g g' : Graph} {id : String} {new : List Node}

theorem mem_subtree_of_new (h : g.shape.Nested) (h' : g'.shape.Nested)
    (hnodes : g'.nodes = g.nodes ++ new) (hid : id ∈ g'.shape.ids) (hfresh : id ∉ g.shape.ids)
    (hnew : ∀ m ∈ new, m.id ∉ g.shape.ids ∧ (m.id = id ∨ m.parent = some id)) {m : Node}
    (hm : m ∈ g'.nodes) : m.id ∈ g'.subtree id <-> m.id ∉ g.shape.ids := by
  obtain ⟨x, hx, rfl⟩ := List.mem_map.1 hid
  rw [← m.slot_id, mem_subtree_iff h' hx (slot_mem hm), Node.slot_id]
  constructor
  · -- what an old node stands in is old
    intro hin hold
    suffices holds : ∀ c, Relation.ReflTransGen g'.StandsIn m.id c -> c ∈ g.shape.ids from
      hfresh (holds x.id hin)
    intro c hin
    induction hin with
    | refl => exact hold
    | tail _ hstands ih =>
        obtain ⟨k, hk, rfl, hparent⟩ := hstands
        rw [hnodes] at hk
        rcases List.mem_append.1 hk with hk | hk
        · rcases h.parents k.slot (slot_mem hk) with hnone | ⟨y, hy, hyparent, -⟩
          · cases hparent.symm.trans hnone
          · cases hparent.symm.trans hyparent
            exact List.mem_map_of_mem hy
        · exact absurd ih (hnew k hk).1
  · intro hmnew
    rw [hnodes] at hm
    rcases List.mem_append.1 hm with hm' | hm'
    · exact absurd (List.mem_map_of_mem (slot_mem hm')) hmnew
    · rcases (hnew m hm').2 with heq | hparent
      · rw [heq]
      · exact .single ⟨m, hnodes ▸ hm, rfl, hparent⟩

end Graph

namespace Draft

variable {d : Draft} {run : Scope -> List String} {a : Anchor} {p n : String} {u v : List String}

theorem slot_mem_insertBlock (hvalid : a.isValid d.graph) (hp : a.previous = some p)
    (hn : a.next = some n) (stem : String) (kind : Kind) :
    ⟨d.supply.upcoming 1, a.parent, (Block.fresh kind).role⟩ ∈
      (d.insertBlock stem kind a).2.graph.shape.slots := by
  have hmem : ⟨d.supply.upcoming 1, a.parent,
      .block { label := Label.generate stem d.graph.labels } (.fresh kind)⟩ ∈
        (d.insertBlock stem kind a).2.graph.nodes := by
    rw [nodes_insertBlock hvalid hp hn stem kind]
    exact List.mem_append_right _ List.mem_cons_self
  exact Graph.slot_mem hmem

section Insert

variable (h : d.Laid run) (hvalid : a.isValid d.graph) (hp : a.previous = some p)
  (hn : a.next = some n) (hrun : run a.place = u ++ p :: n :: v) (stem : String) (kind : Kind)
include h hvalid hp hn hrun

/-- What came with a block is what is nested in it. -/
theorem mem_subtree_insertBlock {m : Node} (hm : m ∈ (d.insertBlock stem kind a).2.graph.nodes) :
    m.id ∈ (d.insertBlock stem kind a).2.graph.subtree (d.supply.upcoming 1) <->
      m.id ∉ d.graph.shape.ids := by
  have hnodes := nodes_insertBlock hvalid hp hn stem kind
  have hfresh : ∀ i, d.supply.upcoming (i + 1) ∉ d.graph.shape.ids := fun i =>
    not_mem_upcoming h.issued (Nat.succ_pos i)
  refine Graph.mem_subtree_of_new h.shape.toNested
    (h.insertBlock_of_run hvalid hp hn hrun stem kind).shape.toNested hnodes ?_ (hfresh 0)
    (fun k hk => ?_) hm
  · rw [Graph.ids_shape, hnodes]
    simp
  · rcases List.mem_cons.1 hk with rfl | hk
    · exact ⟨hfresh 0, Or.inl rfl⟩
    · obtain ⟨hid, hparent, -⟩ := mem_bodyNodes hk
      refine ⟨?_, Or.inr hparent⟩
      rcases hid with hid | hid
      · exact hid ▸ hfresh 1
      · exact hid ▸ hfresh 2

theorem filter_nodes_insertBlock : ((d.insertBlock stem kind a).2.graph.nodes.filter fun m =>
      m.id ∉ (d.insertBlock stem kind a).2.graph.subtree (d.supply.upcoming 1)) =
    d.graph.nodes := by
  have hnodes := nodes_insertBlock hvalid hp hn stem kind
  have hids := (h.insertBlock_of_run hvalid hp hn hrun stem kind).shape.distinct
  rw [Graph.ids_shape, hnodes, List.map_append] at hids
  calc (d.insertBlock stem kind a).2.graph.nodes.filter _
      = (d.insertBlock stem kind a).2.graph.nodes.filter fun m => m.id ∈ d.graph.shape.ids := by
        refine List.filter_congr fun m hm => decide_eq_decide.2 ?_
        rw [mem_subtree_insertBlock h hvalid hp hn hrun stem kind hm, not_not]
    _ = d.graph.nodes := by
        rw [hnodes, List.filter_append, Graph.ids_shape, List.filter_eq_self.2,
          List.filter_eq_nil_iff.2, List.append_nil]
        · intro m hm
          rw [decide_eq_true_eq]
          exact fun hold => (List.nodup_append.1 hids).2.2 _ hold _ (List.mem_map_of_mem hm) rfl
        · exact fun m hm => decide_eq_true (List.mem_map_of_mem hm)

theorem labelsOf_insertBlock {l : String}
    (hl : l ∈ (d.insertBlock stem kind a).2.graph.labelsOf
      ((d.insertBlock stem kind a).2.graph.subtree (d.supply.upcoming 1))) :
    l ∉ d.graph.labels := by
  obtain ⟨m, hm, hmid, hml⟩ := Graph.mem_labelsOf.1 hl
  rw [mem_subtree_insertBlock h hvalid hp hn hrun stem kind hm] at hmid
  rw [nodes_insertBlock hvalid hp hn stem kind] at hm
  rcases List.mem_append.1 hm with hold | hnew
  · exact absurd (List.mem_map_of_mem (Graph.slot_mem hold)) hmid
  · rcases List.mem_cons.1 hnew with rfl | hbody
    · cases hml
      exact Label.generate_not_mem stem d.graph.labels
    · rw [Node.label?, (mem_bodyNodes hbody).2.2.1] at hml
      cases hml

theorem nodes_removeSubtree_insertBlock (hdangling : d.graph.dangling = []) :
    ((d.insertBlock stem kind a).2.graph.removeSubtree (d.supply.upcoming 1)).nodes =
      d.graph.nodes := by
  have hsettled := (Graph.dangling_eq_nil h.shape.distinct).1 hdangling
  have hids := (h.insertBlock_of_run hvalid hp hn hrun stem kind).shape.distinct
  rw [Graph.nodes_removeSubtree hids, filter_nodes_insertBlock h hvalid hp hn hrun stem kind]
  refine (List.map_congr_left fun m hm => ?_).trans (List.map_id _)
  -- a block that was there refers to labels that were there
  have hkept : ∀ b, m.block? = some b -> b.without ((d.insertBlock stem kind a).2.graph.labelsOf
      ((d.insertBlock stem kind a).2.graph.subtree (d.supply.upcoming 1))) = b := by
    intro b hb
    refine Block.without_eq_self fun r hr l hl hrl => ?_
    obtain ⟨heading, hcarried⟩ := Node.block?_eq_some.1 hb
    have hholds : d.graph.Holds r := ⟨(heading, b), Graph.mem_contents.2 ⟨m, hm, hcarried⟩, hr⟩
    rcases hsettled r hholds l hrl with hlabel | ⟨-, hfalse⟩
    · exact labelsOf_insertBlock h hvalid hp hn hrun stem kind hl hlabel
    · exact hfalse
  obtain ⟨id, parent, content⟩ := m
  cases content with
  | start => rfl
  | insertionMarker => rfl
  | block heading b => exact congrArg (fun b => Node.mk id parent (.block heading b)) (hkept b rfl)

theorem source_mem_subtree_insertBlock {e : Edge}
    (he : e ∈ (d.insertBlock stem kind a).2.graph.edges) :
    e.source ∈ (d.insertBlock stem kind a).2.graph.subtree (d.supply.upcoming 1) <->
      e.source ∉ d.graph.shape.ids := by
  have hlaid := h.insertBlock_of_run hvalid hp hn hrun stem kind
  obtain ⟨x, hx, hxid⟩ := List.mem_map.1 (hlaid.shape.source_mem (Graph.link_mem he))
  obtain ⟨m, hm, rfl⟩ := Graph.mem_slots.1 hx
  have hmid : m.id = e.source := hxid
  rw [← hmid, mem_subtree_insertBlock h hvalid hp hn hrun stem kind hm]

theorem filter_edges_insertBlock : ∃ before behind,
    ((d.insertBlock stem kind a).2.graph.edges.filter fun e =>
        e.source ∉ (d.insertBlock stem kind a).2.graph.subtree (d.supply.upcoming 1)) =
      (d.graph.edges.filter fun e => !inGap p n a.tag e) ++ [before] ∧
    (∀ e ∈ (d.insertBlock stem kind a).2.graph.edges,
      e.source = d.supply.upcoming 1 -> e = behind) ∧
    before.link = ⟨p, d.supply.upcoming 1, a.tag⟩ ∧
    before.hidden = a.tag.any d.graph.isHiddenBranch ∧
    behind.link = ⟨d.supply.upcoming 1, n, a.tag⟩ ∧
    behind.kind = (d.insertBlock stem kind a).2.graph.kindInto n a.tag := by
  obtain ⟨hs, -⟩ := (Anchor.isValid_iff h.shape).1 hvalid
  have hfresh : ∀ i, d.supply.upcoming (i + 1) ∉ d.graph.shape.ids := fun i =>
    not_mem_upcoming h.issued (Nat.succ_pos i)
  have hpmem : p ∈ d.graph.shape.ids := h.shape.mem_ids_of_mem_run hs (by simp [hrun])
  obtain ⟨body, before, behind, hedges, hbody, hbefore, hhidden, hbehind, hkind⟩ :=
    exists_edges_insertBlock hvalid hp hn stem kind
  have hold : ∀ e ∈ d.graph.edges, e.source ∈ d.graph.shape.ids := fun e he =>
    h.shape.source_mem (Graph.link_mem he)
  have hinner : ∀ e ∈ body, e.source = d.supply.upcoming 2 := fun e he =>
    (ends_of_bodyLinks hbody he).1
  have hbeforep : before.source = p := congrArg Link.source hbefore
  have hbehindid : behind.source = d.supply.upcoming 1 := congrArg Link.source hbehind
  refine ⟨before, behind, ?_, fun e he hsource => ?_, hbefore, hhidden, hbehind, hkind⟩
  · calc (d.insertBlock stem kind a).2.graph.edges.filter _
        = (d.insertBlock stem kind a).2.graph.edges.filter fun e =>
            e.source ∈ d.graph.shape.ids := by
          refine List.filter_congr fun e he => decide_eq_decide.2 ?_
          rw [source_mem_subtree_insertBlock h hvalid hp hn hrun stem kind he, not_not]
      _ = (d.graph.edges.filter fun e => !inGap p n a.tag e) ++ [before] := by
          have hkept : (d.graph.edges.filter fun e => !inGap p n a.tag e).filter (fun e =>
              e.source ∈ d.graph.shape.ids) = d.graph.edges.filter fun e => !inGap p n a.tag e :=
            List.filter_eq_self.2 fun e he => decide_eq_true (hold e (List.mem_of_mem_filter he))
          have hgone : body.filter (fun e => e.source ∈ d.graph.shape.ids) = [] := by
            refine List.filter_eq_nil_iff.2 fun e he => ?_
            simpa [hinner e he] using hfresh 1
          rw [hedges, List.filter_append, List.filter_append, hkept, hgone, List.append_nil]
          simp [hbeforep, hbehindid, hpmem, hfresh 0]
  · rw [hedges] at he
    simp only [List.mem_append, List.mem_cons, List.not_mem_nil, or_false] at he
    rcases he with (he | he) | rfl | rfl
    · exact absurd (hsource ▸ hold e (List.mem_of_mem_filter he)) (hfresh 0)
    · exact absurd (d.supply.upcoming_injective ((hinner e he).symm.trans hsource)) (by simp)
    · exact absurd (hsource ▸ hbeforep ▸ hpmem) (hfresh 0)
    · rfl

/-- Without the block its neighbours are joined by an edge again. -/
theorem exists_edges_removeSubtree_insertBlock : ∃ e,
    ((d.insertBlock stem kind a).2.graph.removeSubtree (d.supply.upcoming 1)).edges =
      (d.graph.edges.filter fun e => !inGap p n a.tag e) ++ [e] ∧
    e.link = ⟨p, n, a.tag⟩ ∧ e.hidden = a.tag.any d.graph.isHiddenBranch ∧
    e.kind = (d.insertBlock stem kind a).2.graph.kindInto n a.tag := by
  have hlaid := h.insertBlock_of_run hvalid hp hn hrun stem kind
  have hslot := slot_mem_insertBlock hvalid hp hn stem kind
  obtain ⟨before, behind, hfilter, hbehindonly, hbefore, hhidden, hbehind, hkind⟩ :=
    filter_edges_insertBlock h hvalid hp hn hrun stem kind
  obtain ⟨next, hfirst, -, hedges⟩ :=
    Graph.edges_removeSubtree hlaid.shape hslot (Block.isBlock_role _)
  obtain rfl : next = behind :=
    hbehindonly next (List.mem_of_find?_eq_some hfirst) (by simpa using List.find?_some hfirst)
  have htarget : before.target = d.supply.upcoming 1 := congrArg Link.target hbefore
  have hdetour : before.detour (d.supply.upcoming 1) next =
      { before with target := next.target, kind := next.kind } := if_pos htarget
  refine ⟨before.detour (d.supply.upcoming 1) next, ?_, ?_, ?_, ?_⟩
  · rw [hedges, hfilter, List.map_append]
    congr 1
    refine (List.map_congr_left fun e he => Edge.detour_of_ne (fun heq => ?_) _).trans
      (List.map_id _)
    have hmem := h.shape.target_mem (Graph.link_mem (List.mem_of_mem_filter he))
    have htarget : e.link.target = d.supply.upcoming 1 := heq
    exact not_mem_upcoming h.issued Nat.one_pos (htarget ▸ hmem)
  · rw [hdetour]
    simp only [Edge.link, Link.mk.injEq] at hbefore hbehind ⊢
    exact ⟨hbefore.1, hbehind.2.1, hbefore.2.2⟩
  · rw [hdetour]
    exact hhidden
  · rw [hdetour]
    exact hkind

end Insert
end Draft
end Workflow
