import Workflow.Proofs.Edit.Commuting
import Workflow.Proofs.Run.WellFormed

/-!
# What removing a block takes away

A block goes with what is nested in it and with the references to the labels that go.  Its
scope closes behind it, and every other scope that stays runs as before.  When no block is left,
the workflow is the empty one.
-/

namespace Workflow
namespace Graph

/-- A block is gone from a graph with everything nested in it. -/
structure Loses (g g' : Graph) (id : String) (gone : List String) : Prop where
  within : ∀ n ∈ g.nodes, n.id ∈ gone <-> Relation.ReflTransGen g.StandsIn n.id id
  nodes : g'.nodes = (g.nodes.filter fun n => n.id ∉ gone).map
    (Node.mapBlock (Block.without (g.labelsOf gone)))
  edges : ∀ e ∈ g'.edges, e.source ∉ gone ∧ e.target ∉ gone
  scopes : ∀ t, t ∈ g'.scopes <-> t ∈ g.scopes ∧ ∀ c, t.parent = some c -> c ∉ gone
  chains : ∃ s ∈ g'.scopes,
    (∃ u v, g.chain s = u ++ id :: v ∧ g'.chain s = u ++ v) ∧
    ∀ t ∈ g'.scopes, t ≠ s -> g'.chain t = g.chain t

/-- A start marker, an insertion marker and a plain edge between them. -/
def IsBlank (g : Graph) : Prop :=
  ∃ start marker edge, start ≠ marker ∧
    g = ⟨[⟨start, none, .start⟩, ⟨marker, none, .insertionMarker⟩],
      [⟨edge, start, marker, .plain, none, false⟩]⟩

variable {g : Graph} {run : Scope -> List String} {x : Slot}

section Remove

variable (h : g.shape.Laid run) (hx : x ∈ g.shape.slots) (hblock : x.role.isBlock)
include h hx hblock

theorem mem_scopes_removeSubtree {t : Scope} : t ∈ (g.removeSubtree x.id).scopes <->
    t ∈ g.scopes ∧ ∀ c, t.parent = some c -> c ∉ g.subtree x.id := by
  obtain ⟨-, -, hscope⟩ := laid_removeSubtree h hx hblock
  rw [mem_scopes, mem_scopes, hscope, Shape.Outside]
  simp only [subtree, List.mem_cons, not_or]

theorem chain_removeSubtree {t : Scope} (ht : t ∈ (g.removeSubtree x.id).scopes) :
    (g.removeSubtree x.id).chain t = (g.chain t).filter (· ≠ x.id) := by
  obtain ⟨hlaid, -, -⟩ := laid_removeSubtree h hx hblock
  have htscope := ((mem_scopes_removeSubtree h hx hblock).1 ht).1
  rw [chain_eq hlaid (mem_scopes.1 ht), chain_eq h (mem_scopes.1 htscope)]

theorem loses_removeSubtree : g.Loses (g.removeSubtree x.id) x.id (g.subtree x.id) := by
  obtain ⟨hlaid, hslots, hscope⟩ := laid_removeSubtree h hx hblock
  have hnest := isNest_descendants h.toNested (List.mem_map_of_mem hx)
  have hkept : ∀ id ∈ (g.removeSubtree x.id).shape.ids, id ∉ g.subtree x.id := by
    intro id hid
    obtain ⟨y, hy, rfl⟩ := List.mem_map.1 hid
    exact ((hslots y).1 hy).2
  constructor
  case within => exact fun n hn => mem_subtree_iff h.toNested hx (slot_mem hn)
  case nodes => exact nodes_removeSubtree h.distinct x.id
  case edges =>
    exact fun e he => ⟨hkept _ (hlaid.source_mem (link_mem he)),
      hkept _ (hlaid.target_mem (link_mem he))⟩
  case scopes => exact fun t => mem_scopes_removeSubtree h hx hblock
  case chains =>
    obtain ⟨s, ⟨hs, hmem⟩, hunique⟩ := h.placed x hx hblock
    have hparent := h.parent_of_mem_run hs hx hmem
    have hskept : s ∈ (g.removeSubtree x.id).scopes := by
      rw [mem_scopes, hscope, ← hparent]
      exact ⟨hs, hnest.outside_parent hx hnest.notSelf⟩
    have hnodup := (h.runs s hs).nodup
    rw [← chain_eq h hs] at hmem hnodup
    obtain ⟨u, v, hsplit⟩ := List.append_of_mem hmem
    refine ⟨s, hskept, ⟨u, v, hsplit, ?_⟩, fun t ht hts => ?_⟩
    · rw [chain_removeSubtree h hx hblock hskept, hsplit, filter_ne_middle (hsplit ▸ hnodup)]
    · rw [chain_removeSubtree h hx hblock ht, List.filter_eq_self]
      intro c hc
      have hcx : c ≠ x.id := by
        rintro rfl
        have htscope := mem_scopes.1 ((mem_scopes_removeSubtree h hx hblock).1 ht).1
        exact hts (hunique t ⟨htscope, chain_eq h htscope ▸ hc⟩)
      simpa using hcx

theorem hasBlocks_removeSubtree : (g.removeSubtree x.id).hasBlocks <->
    ∃ y ∈ g.shape.slots, y.role.isBlock ∧ y.id ∉ g.subtree x.id := by
  obtain ⟨-, hslots, -⟩ := laid_removeSubtree h hx hblock
  simp only [hasBlocks_iff, hslots, subtree, and_assoc]
  exact exists_congr fun y => and_congr_right fun _ => and_comm

end Remove

theorem block?_eq_none {id : String} (h : ∀ n ∈ g.nodes, n.id = id -> n.isBlock = false) :
    g.block? id = none := by
  cases hn : g.node? id with
  | none => rw [block?, hn, Option.bind_none]
  | some n =>
      obtain ⟨hmem, hid⟩ := mem_of_node? hn
      have hblock := h n hmem hid
      rw [Node.isBlock, Option.isSome_eq_false_iff, Option.isNone_iff_eq_none] at hblock
      rw [block?, hn, Option.bind_some, hblock]

end Graph

namespace Draft

variable {d : Draft} {run : Scope -> List String} {x : Slot}

theorem isBlank_emptyState (s : Supply) : (emptyState s).graph.IsBlank :=
  ⟨s.upcoming 1, s.upcoming 2, _, fun h => absurd (s.upcoming_injective h) (by simp), rfl⟩

theorem removeBlock_of_slot (h : d.Laid run) (hx : x ∈ d.graph.shape.slots)
    (hblock : x.role.isBlock) : d.removeBlock x.id =
      if (d.graph.removeSubtree x.id).hasBlocks then d.modify fun g => g.removeSubtree x.id
      else emptyState d.supply := by
  obtain ⟨b, hb, -⟩ := Graph.block?_of_slot h.shape.distinct hx hblock
  simp only [removeBlock, hb]
  rfl

/-- Removing a block takes its subtree away and nothing else, or all of the workflow if it is
the last one. -/
theorem loses_removeBlock (h : d.Reachable) (id : String) :
    (∀ n ∈ d.graph.nodes, n.id = id -> n.isBlock ->
      ((∃ m ∈ d.graph.nodes, m.isBlock ∧ ¬ Relation.ReflTransGen d.graph.StandsIn m.id id) ->
        ∃ gone, d.graph.Loses (d.removeBlock id).graph id gone) ∧
      ((∀ m ∈ d.graph.nodes, m.isBlock -> Relation.ReflTransGen d.graph.StandsIn m.id id) ->
        (d.removeBlock id).graph.IsBlank)) ∧
    ((∀ n ∈ d.graph.nodes, n.id = id -> n.isBlock = false) -> d.removeBlock id = d) := by
  obtain ⟨run, hlaid⟩ := h.laid
  refine ⟨?_, fun hnone => by simp only [removeBlock, Graph.block?_eq_none hnone]⟩
  rintro n hn rfl hblock
  rw [← n.isBlock_slot] at hblock
  have hremove := removeBlock_of_slot hlaid (Graph.slot_mem hn) hblock
  have hleft := Graph.hasBlocks_removeSubtree hlaid.shape (Graph.slot_mem hn) hblock
  rw [Node.slot_id] at hremove hleft
  constructor
  · rintro ⟨m, hm, hmblock, hout⟩
    rw [hremove, if_pos (hleft.2 ⟨m.slot, Graph.slot_mem hm, m.isBlock_slot ▸ hmblock, ?_⟩)]
    · exact ⟨_, Graph.loses_removeSubtree hlaid.shape (Graph.slot_mem hn) hblock⟩
    · exact mt (Graph.mem_subtree_iff hlaid.shape.toNested (Graph.slot_mem hn)
        (Graph.slot_mem hm)).1 hout
  · intro hall
    rw [hremove, if_neg]
    · exact isBlank_emptyState d.supply
    · rw [hleft]
      rintro ⟨y, hy, hyblock, hout⟩
      obtain ⟨m, hm, rfl⟩ := Graph.mem_slots.1 hy
      exact hout ((Graph.mem_subtree_iff hlaid.shape.toNested (Graph.slot_mem hn) hy).2
        (hall m hm (m.isBlock_slot ▸ hyblock)))

/-- A task in a loop, and before the loop a block that reads what the task puts out. -/
def readingCommands : List (String × Command) :=
  [("block", .addNode .code ⟨some "#1", some "#2", none, none⟩),
    ("block", .addNode .loop ⟨some "#3", some "#2", none, none⟩),
    ("block", .addNode .task ⟨some "#5", some "#6", some "#4", none⟩),
    ("block", .updateBlock "#3"
      (.leaf (.code { parameterKeys := ["block_3_output", "name"] })))]

theorem reachable_readingCommands : ((emptyState {}).applyAll readingCommands).Reachable :=
  reachable_applyAll {} _

/-- The loop goes with the task in it and the reference to it; then the other block is the last. -/
theorem loses_removeBlock_reading :
    ∃ d : Draft, d.Reachable ∧ d.graph.chain .root = ["#1", "#3", "#4", "#2"] ∧
      (∃ gone, d.graph.Loses (d.removeBlock "#4").graph "#4" gone) ∧
      (d.removeBlock "#4").graph.chain .root = ["#1", "#3", "#2"] ∧
      ((d.removeBlock "#4").graph.block? "#3").map Block.parameterKeys = some ["name"] ∧
      ((d.removeBlock "#4").removeBlock "#3").graph.IsBlank := by
  have hreachable := reachable_readingCommands
  refine ⟨_, hreachable, by decide +kernel, ?_, by decide +kernel, by decide +kernel, ?_⟩
  · have hloop : ∃ n ∈ ((emptyState {}).applyAll readingCommands).graph.nodes,
        n.id = "#4" ∧ n.isBlock := by
      decide +kernel
    have hother : ∃ n ∈ ((emptyState {}).applyAll readingCommands).graph.nodes,
        n.id = "#3" ∧ n.isBlock := by
      decide +kernel
    have htop : ∀ n ∈ ((emptyState {}).applyAll readingCommands).graph.nodes,
        n.id = "#3" -> n.parent = none := by
      decide +kernel
    obtain ⟨n, hn, hid, hblock⟩ := hloop
    obtain ⟨m, hm, hmid, hmblock⟩ := hother
    refine ((loses_removeBlock hreachable "#4").1 n hn hid hblock).1 ⟨m, hm, hmblock, fun hin => ?_⟩
    rcases hin.cases_head with heq | ⟨p, ⟨k, hk, hkid, hparent⟩, -⟩
    · rw [hmid] at heq
      exact absurd heq (by decide)
    · rw [htop k hk (hkid.trans hmid)] at hparent
      cases hparent
  · have hlast : ∃ n ∈ (((emptyState {}).applyAll readingCommands).removeBlock "#4").graph.nodes,
        n.id = "#3" ∧ n.isBlock := by
      decide +kernel
    have honly : ∀ n ∈ (((emptyState {}).applyAll readingCommands).removeBlock "#4").graph.nodes,
        n.isBlock -> n.id = "#3" := by
      decide +kernel
    obtain ⟨n, hn, hid, hblock⟩ := hlast
    have hedited : (((emptyState {}).applyAll readingCommands).removeBlock "#4").Reachable :=
      hreachable.edit "block" (.deleteNode "#4")
    refine ((loses_removeBlock hedited "#3").1 n hn hid hblock).2 fun m hm hmblock => ?_
    rw [honly m hm hmblock]

/-!
# Two blocks in either order
-/

theorem removeBlock_of_none {id : String} (h : d.graph.block? id = none) :
    d.removeBlock id = d := by
  simp only [removeBlock, h]

theorem Laid.removeSubtree (h : d.Laid run) (hx : x ∈ d.graph.shape.slots)
    (hblock : x.role.isBlock) : ∃ run', (d.modify fun g => g.removeSubtree x.id).Laid run' := by
  obtain ⟨hlaid, hslots, -⟩ := Graph.laid_removeSubtree h.shape hx hblock
  exact ⟨_, hlaid, fun c hc => h.issued c (ids_subset (fun y hy => ((hslots y).1 hy).1) hc)⟩

theorem block?_removeBlock (h : d.Laid run) (hx : x ∈ d.graph.shape.slots)
    (hblock : x.role.isBlock) {id : String} (hid : id ∈ d.graph.subtree x.id) :
    (d.removeBlock x.id).graph.block? id = none := by
  rw [removeBlock_of_slot h hx hblock]
  split
  · obtain ⟨-, hslots, -⟩ := Graph.laid_removeSubtree h.shape hx hblock
    refine Graph.block?_eq_none fun n hn heq => absurd hid ?_
    rw [← heq]
    exact ((hslots n.slot).1 (Graph.slot_mem hn)).2
  · have hnone : (emptyState d.supply).graph.hasBlocks = false := rfl
    refine Graph.block?_eq_none fun n hn _ => ?_
    simpa using List.any_eq_false.1 hnone n hn

section Pair

variable {y : Slot} (h : d.Laid run) (hx : x ∈ d.graph.shape.slots) (hxblock : x.role.isBlock)
  (hy : y ∈ d.graph.shape.slots) (hyblock : y.role.isBlock)
include h hx hxblock hy hyblock

theorem removeBlock_removeBlock (hyx : y.id ∉ d.graph.subtree x.id) :
    (d.removeBlock x.id).removeBlock y.id =
      if ((d.graph.removeSubtree x.id).removeSubtree y.id).hasBlocks then
        ⟨(d.graph.removeSubtree x.id).removeSubtree y.id, d.supply⟩
      else emptyState d.supply := by
  obtain ⟨run', hlaid⟩ := h.removeSubtree hx hxblock
  obtain ⟨-, hslots, -⟩ := Graph.laid_removeSubtree h.shape hx hxblock
  rw [removeBlock_of_slot h hx hxblock,
    if_pos ((Graph.hasBlocks_removeSubtree h.shape hx hxblock).2 ⟨y, hy, hyblock, hyx⟩)]
  exact removeBlock_of_slot hlaid ((hslots y).2 ⟨hy, hyx⟩) hyblock

theorem removeBlock_comm_of_nested (hyx : y.id ∈ d.graph.subtree x.id) (hne : x.id ≠ y.id) :
    (d.removeBlock x.id).removeBlock y.id = (d.removeBlock y.id).removeBlock x.id := by
  have hxy : x.id ∉ d.graph.subtree y.id := fun hxy =>
    hne (Graph.eq_of_mem_subtree h.shape.toNested hx hy hyx hxy)
  rw [removeBlock_of_none (block?_removeBlock h hx hxblock hyx),
    removeBlock_removeBlock h hy hyblock hx hxblock hxy,
    Graph.removeSubtree_of_nested h.shape hx hxblock hy hyblock hyx hxy]
  exact removeBlock_of_slot h hx hxblock

theorem removeBlock_comm_of_slots (hne : x.id ≠ y.id) :
    (d.removeBlock x.id).removeBlock y.id = (d.removeBlock y.id).removeBlock x.id := by
  by_cases hyx : y.id ∈ d.graph.subtree x.id
  · exact removeBlock_comm_of_nested h hx hxblock hy hyblock hyx hne
  by_cases hxy : x.id ∈ d.graph.subtree y.id
  · exact (removeBlock_comm_of_nested h hy hyblock hx hxblock hxy hne.symm).symm
  rw [removeBlock_removeBlock h hx hxblock hy hyblock hyx,
    removeBlock_removeBlock h hy hyblock hx hxblock hxy,
    Graph.removeSubtree_comm h.shape hx hxblock hy hyblock hyx hxy]

theorem removeBlock_removeBlock_of_all (hall : ∀ z ∈ d.graph.shape.slots, z.role.isBlock ->
      z.id ∈ d.graph.subtree x.id ∨ z.id ∈ d.graph.subtree y.id) :
    (d.removeBlock x.id).removeBlock y.id = emptyState d.supply := by
  by_cases hyx : y.id ∈ d.graph.subtree x.id
  · rw [removeBlock_of_none (block?_removeBlock h hx hxblock hyx),
      removeBlock_of_slot h hx hxblock, if_neg]
    rw [Graph.hasBlocks_removeSubtree h.shape hx hxblock]
    rintro ⟨z, hz, hzblock, hzx⟩
    exact hzx ((hall z hz hzblock).elim id
      (Graph.mem_subtree_trans h.shape.toNested hx hy hz hyx))
  · rw [removeBlock_removeBlock h hx hxblock hy hyblock hyx, if_neg]
    obtain ⟨hlaid, hslots, -⟩ := Graph.laid_removeSubtree h.shape hx hxblock
    rw [Graph.hasBlocks_removeSubtree hlaid ((hslots y).2 ⟨hy, hyx⟩) hyblock]
    rintro ⟨z, hz, hzblock, hzy⟩
    obtain ⟨hz, hzx⟩ := (hslots z).1 hz
    refine hzy ((Graph.mem_subtree_removeSubtree h.shape hx hxblock hy hyx
      (List.mem_map_of_mem hz) hzx).2 ?_)
    exact (hall z hz hzblock).resolve_left hzx

end Pair

/-- It does not matter in which order two blocks are removed. -/
theorem removeBlock_comm (h : d.Reachable) {m n : Node} (hm : m ∈ d.graph.nodes)
    (hn : n ∈ d.graph.nodes) (hmblock : m.isBlock) (hnblock : n.isBlock) (hne : m.id ≠ n.id) :
    (d.removeBlock m.id).removeBlock n.id = (d.removeBlock n.id).removeBlock m.id ∧
    ((∀ k ∈ d.graph.nodes, k.isBlock -> Relation.ReflTransGen d.graph.StandsIn k.id m.id ∨
        Relation.ReflTransGen d.graph.StandsIn k.id n.id) ->
      (d.removeBlock m.id).removeBlock n.id = emptyState d.supply) := by
  obtain ⟨run, hlaid⟩ := h.laid
  have hmslot := Graph.slot_mem hm
  have hnslot := Graph.slot_mem hn
  rw [← m.isBlock_slot] at hmblock
  rw [← n.isBlock_slot] at hnblock
  refine ⟨removeBlock_comm_of_slots hlaid hmslot hmblock hnslot hnblock hne, fun hall => ?_⟩
  refine removeBlock_removeBlock_of_all hlaid hmslot hmblock hnslot hnblock ?_
  intro z hz hzblock
  obtain ⟨k, hk, rfl⟩ := Graph.mem_slots.1 hz
  exact (hall k hk (k.isBlock_slot ▸ hzblock)).imp
    (Graph.mem_subtree_iff hlaid.shape.toNested hmslot hz).2
    (Graph.mem_subtree_iff hlaid.shape.toNested hnslot hz).2

/-- The loop and the task in it, and the loop and the block before it, which are all there is. -/
theorem removeBlock_comm_reading :
    ∃ d : Draft, d.Reachable ∧
      (d.removeBlock "#4").removeBlock "#7" = (d.removeBlock "#7").removeBlock "#4" ∧
      (d.removeBlock "#4").removeBlock "#3" = (d.removeBlock "#3").removeBlock "#4" ∧
      (d.removeBlock "#4").removeBlock "#3" = emptyState d.supply := by
  have hreachable := reachable_readingCommands
  have hnode : ∀ id ∈ ["#3", "#4", "#7"],
      ∃ n ∈ ((emptyState {}).applyAll readingCommands).graph.nodes, n.id = id ∧ n.isBlock := by
    decide +kernel
  have hplaces : ∀ n ∈ ((emptyState {}).applyAll readingCommands).graph.nodes, n.isBlock ->
      n.id = "#3" ∨ n.id = "#4" ∨ n.parent = some "#4" := by
    decide +kernel
  obtain ⟨before, hbefore, hbeforeid, hbeforeblock⟩ := hnode "#3" (by decide)
  obtain ⟨loop, hloop, hloopid, hloopblock⟩ := hnode "#4" (by decide)
  obtain ⟨task, htask, htaskid, htaskblock⟩ := hnode "#7" (by decide)
  have hinside := removeBlock_comm hreachable hloop htask hloopblock htaskblock
    (by rw [hloopid, htaskid]; decide)
  have hbeside := removeBlock_comm hreachable hloop hbefore hloopblock hbeforeblock
    (by rw [hloopid, hbeforeid]; decide)
  rw [hloopid, htaskid] at hinside
  rw [hloopid, hbeforeid] at hbeside
  refine ⟨_, hreachable, hinside.1, hbeside.1, hbeside.2 fun n hn hblock => ?_⟩
  rcases hplaces n hn hblock with heq | heq | hparent
  · exact Or.inr (heq ▸ .refl)
  · exact Or.inl (heq ▸ .refl)
  · exact Or.inl (.single ⟨n, hn, rfl, hparent⟩)

end Draft
end Workflow
