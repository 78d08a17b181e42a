import Workflow.Proofs.Run.Basic

/-!
# Well-formed graphs

What holds of every graph that editing can reach: containers nest without a cycle, every
body has one marker at each end, edges stay inside a body and carry the tag of their
branch, and the chain of each scope goes from marker to marker through the edges of the
scope.  Every block is on one chain.
-/

namespace Workflow
namespace Graph

/-- The top level, or the inside of a container. -/
def HasBody (g : Graph) (p : Option String) : Prop :=
  p = none ∨ ∃ n ∈ g.nodes, n.isContainer ∧ p = some n.id

/-- The tags that edges inside a body have: those of the branches in a conditional, and
none elsewhere. -/
def TagFits (g : Graph) (p : Option String) (tag : Option BranchTag) : Prop :=
  match p.bind g.conditional? with
  | none => tag = none
  | some c => ∃ id, p = some id ∧ ∃ b ∈ c.branchIds, tag = some ⟨id, b⟩

/-- An edge joins two nodes of one body and fits into it. -/
def Joins (g : Graph) (e : Edge) : Prop :=
  ∃ m ∈ g.nodes, ∃ n ∈ g.nodes,
    m.id = e.source ∧ n.id = e.target ∧ m.parent = n.parent ∧ g.TagFits m.parent e.tag

/-- A chain from the start marker of a scope to its insertion marker, with different
blocks in between. -/
def IsPath (g : Graph) (s : Scope) (chain : List String) : Prop :=
  chain.Nodup ∧ ∃ m ∈ g.nodes, ∃ n ∈ g.nodes, ∃ blocks : List String,
    m.isStart ∧ m.parent = s.parent ∧ n.isInsertionMarker ∧ n.parent = s.parent ∧
    chain = m.id :: (blocks ++ [n.id]) ∧
    ∀ id ∈ blocks, ∃ b ∈ g.nodes, b.id = id ∧ b.parent = s.parent ∧ b.isBlock

structure WellFormed (g : Graph) : Prop where
  distinct : (g.nodes.map Node.id).Nodup
  parents : ∀ n ∈ g.nodes, ∀ p, n.parent = some p ->
    ∃ m ∈ g.nodes, m.id = p ∧ m.isContainer
  acyclic : ∀ id, ¬ Relation.TransGen g.StandsIn id id
  start : ∀ p, g.HasBody p -> ∃! n, n ∈ g.nodes ∧ n.parent = p ∧ n.isStart
  marker : ∀ p, g.HasBody p -> ∃! n, n ∈ g.nodes ∧ n.parent = p ∧ n.isInsertionMarker
  edges : ∀ e ∈ g.edges, g.Joins e
  chains : ∀ s ∈ g.scopes, g.IsPath s (g.chain s)
  pairs : ∀ s ∈ g.scopes, ∀ a b, Adjacent (g.chain s) a b <->
    ∃ e ∈ g.edges, e.source = a ∧ e.target = b ∧ e.tag = s.tag ∧
      ∃ n ∈ g.nodes, n.id = a ∧ n.parent = s.parent
  placed : ∀ n ∈ g.nodes, n.isBlock -> ∃! s, s ∈ g.scopes ∧ n.id ∈ g.chain s

/-!
# Laid out graphs are well-formed
-/

section Laid

variable {g : Graph} {run : Scope -> List String}

theorem hasBody_shape {p : Option String} : g.HasBody p <-> g.shape.HasBody p := by
  refine or_congr_right ⟨?_, ?_⟩
  · rintro ⟨n, hn, hcontainer, rfl⟩
    exact ⟨n.slot, slot_mem hn, rfl, n.isContainer_slot ▸ hcontainer⟩
  · rintro ⟨x, hx, rfl, hcontainer⟩
    obtain ⟨n, hn, rfl⟩ := mem_slots.1 hx
    exact ⟨n, hn, n.isContainer_slot ▸ hcontainer, rfl⟩

theorem existsUnique_node {p : Option String} {r : Role} {test : Node -> Bool}
    (hids : g.shape.ids.Nodup) (htest : ∀ n : Node, n.slot.role = r <-> test n)
    (hunique : ∃! id, ⟨id, p, r⟩ ∈ g.shape.slots) :
    ∃! n, n ∈ g.nodes ∧ n.parent = p ∧ test n := by
  obtain ⟨id, hid, honly⟩ := hunique
  obtain ⟨n, hn, hslot⟩ := mem_slots.1 hid
  refine ⟨n, ⟨hn, congrArg Slot.parent hslot, (htest n).1 (congrArg Slot.role hslot)⟩, ?_⟩
  rintro m ⟨hm, rfl, hmtest⟩
  have hmslot : m.slot = ⟨m.id, m.parent, r⟩ := by
    rw [← (htest m).2 hmtest]
    rfl
  have hmem : ⟨m.id, m.parent, r⟩ ∈ g.shape.slots := by
    rw [← hmslot]
    exact slot_mem hm
  have hmid : m.id = id := honly m.id hmem
  rw [ids_shape] at hids
  exact List.inj_on_of_nodup_map hids hm hn (hmid.trans (congrArg Slot.id hslot).symm)

theorem tagFits_of_hasScope (h : g.shape.Nested) {s : Scope} (hs : g.shape.HasScope s) :
    g.TagFits s.parent s.tag := by
  rcases hs with rfl | ⟨x, hx, hs⟩
  · rfl
  · have hparent := Role.parent_of_mem_scopes hs
    obtain ⟨b, hb, hrole⟩ := block?_of_slot h.distinct hx
      (Role.isBlock_of_isContainer (Role.isContainer_of_mem_scopes hs))
    rw [← hrole] at hs
    unfold TagFits
    rw [hparent, Option.bind_some]
    cases b with
    | leaf l => simp [Block.role, Role.scopes] at hs
    | loop a =>
        have hnone : g.conditional? x.id = none := by
          cases hc : g.conditional? x.id with
          | none => rfl
          | some c => cases hb.symm.trans (conditional?_eq_some.1 hc)
        rw [hnone, List.mem_singleton.1 hs]
        rfl
    | conditional c =>
        obtain ⟨b, hbranch, rfl⟩ := List.mem_map.1 hs
        rw [conditional?_eq_some.2 hb]
        exact ⟨x.id, rfl, b, hbranch, rfl⟩

variable (h : g.shape.Laid run)
include h

theorem joins_of_laid {e : Edge} (he : e ∈ g.edges) : g.Joins e := by
  obtain ⟨s, hs, htag, hsource, htarget⟩ := h.slots_of_link (link_mem he)
  obtain ⟨x, hx, hxid, hxparent⟩ := h.slot_of_mem_run hs hsource
  obtain ⟨y, hy, hyid, hyparent⟩ := h.slot_of_mem_run hs htarget
  obtain ⟨m, hm, rfl⟩ := mem_slots.1 hx
  obtain ⟨n, hn, rfl⟩ := mem_slots.1 hy
  refine ⟨m, hm, n, hn, hxid, hyid, hxparent.trans hyparent.symm, ?_⟩
  rw [show m.parent = s.parent from hxparent, show e.tag = s.tag from htag]
  exact tagFits_of_hasScope h.toNested hs

theorem isPath_chain {s : Scope} (hs : g.shape.HasScope s) : g.IsPath s (g.chain s) := by
  obtain ⟨start, blocks, marker, hrun, hstart, hmarker, hblocks⟩ := (h.runs s hs).ends
  obtain ⟨m, hm, hmslot⟩ := mem_slots.1 hstart
  obtain ⟨n, hn, hnslot⟩ := mem_slots.1 hmarker
  rw [chain_eq h hs]
  refine ⟨(h.runs s hs).nodup, m, hm, n, hn, blocks,
    Node.slot_role_eq_start.1 (congrArg Slot.role hmslot), congrArg Slot.parent hmslot,
    Node.slot_role_eq_insertionMarker.1 (congrArg Slot.role hnslot),
    congrArg Slot.parent hnslot, ?_, fun id hid => ?_⟩
  · rw [hrun, show m.id = start from congrArg Slot.id hmslot,
      show n.id = marker from congrArg Slot.id hnslot]
  · obtain ⟨x, hx, hxid, hxparent, hxblock⟩ := hblocks id hid
    obtain ⟨b, hb, rfl⟩ := mem_slots.1 hx
    exact ⟨b, hb, hxid, hxparent, b.isBlock_slot ▸ hxblock⟩

theorem adjacent_chain_iff {s : Scope} (hs : g.shape.HasScope s) {a b : String} :
    Adjacent (g.chain s) a b <->
      ∃ e ∈ g.edges, e.source = a ∧ e.target = b ∧ e.tag = s.tag ∧
        ∃ n ∈ g.nodes, n.id = a ∧ n.parent = s.parent := by
  rw [chain_eq h hs, h.adjacent_iff hs]
  constructor
  · rintro ⟨hlink, ha⟩
    obtain ⟨e, he, heq⟩ := mem_links.1 hlink
    obtain ⟨x, hx, hxid, hxparent⟩ := h.slot_of_mem_run hs ha
    obtain ⟨n, hn, rfl⟩ := mem_slots.1 hx
    exact ⟨e, he, congrArg Link.source heq, congrArg Link.target heq,
      congrArg Link.tag heq, n, hn, hxid, hxparent⟩
  · rintro ⟨e, he, rfl, rfl, htag, n, hn, hid, hparent⟩
    refine ⟨htag ▸ link_mem he, ?_⟩
    obtain ⟨t, ht, httag, hsource, -⟩ := h.slots_of_link (link_mem he)
    have htparent : n.parent = t.parent :=
      h.parent_of_mem_run ht (slot_mem hn) (by rw [Node.slot_id, hid]; exact hsource)
    have hts : t = s := h.scope_unique ht hs (htparent.symm.trans hparent)
      (httag.symm.trans htag)
    rw [← hts]
    exact hsource

theorem wellFormed_of_laid : g.WellFormed := by
  constructor
  case distinct => exact ids_shape g ▸ h.distinct
  case parents =>
    intro n hn p hp
    rcases hasBody_shape.2 (h.parents n.slot (slot_mem hn)) with hnone | ⟨m, hm, hc, hsome⟩
    · cases hnone.symm.trans hp
    · exact ⟨m, hm, Option.some.inj (hsome.symm.trans hp), hc⟩
  case acyclic => exact fun id hcycle => Nat.lt_irrefl _ (rank_lt_of_standsIn h.toNested hcycle)
  case start =>
    intro p hp
    exact existsUnique_node h.distinct (fun _ => Node.slot_role_eq_start)
      (h.start p (hasBody_shape.1 hp))
  case marker =>
    intro p hp
    exact existsUnique_node h.distinct (fun _ => Node.slot_role_eq_insertionMarker)
      (h.marker p (hasBody_shape.1 hp))
  case edges => exact fun e he => joins_of_laid h he
  case chains => exact fun s hs => isPath_chain h (mem_scopes.1 hs)
  case pairs => exact fun s hs a b => adjacent_chain_iff h (mem_scopes.1 hs)
  case placed =>
    intro n hn hblock
    obtain ⟨s, ⟨hs, hns⟩, honly⟩ :=
      h.placed n.slot (slot_mem hn) (n.isBlock_slot.symm ▸ hblock)
    refine ⟨s, ⟨mem_scopes.2 hs, (chain_eq h hs).symm ▸ hns⟩, ?_⟩
    rintro t ⟨ht, hnt⟩
    exact honly t ⟨mem_scopes.1 ht, chain_eq h (mem_scopes.1 ht) ▸ hnt⟩

end Laid
end Graph

namespace Draft

/-- Editing keeps graphs well-formed, whatever the commands and their arguments. -/
theorem reachable_wellFormed {d : Draft} (h : d.Reachable) : d.graph.WellFormed := by
  obtain ⟨run, hlaid⟩ := h.laid
  exact Graph.wellFormed_of_laid hlaid.shape

/-- A task in a loop in a branch, with the other branch removed. -/
def nestedCommands : List (String × Command) :=
  [("block", .addNode .conditional ⟨some "#1", some "#2", none, none⟩),
    ("block", .addNode .loop ⟨some "#4", some "#5", some "#3", some "branch_1"⟩),
    ("block", .addNode .task ⟨some "#7", some "#8", some "#6", none⟩),
    ("block", .removeBranch "#3" "branch_2")]

theorem reachable_wellFormed_nested :
    ((emptyState {}).applyAll nestedCommands).Reachable ∧
      ((emptyState {}).applyAll nestedCommands).graph.scopes.map
          ((emptyState {}).applyAll nestedCommands).graph.chain =
        [["#1", "#3", "#2"], ["#4", "#6", "#5"], ["#7", "#9", "#8"]] ∧
      ((emptyState {}).applyAll nestedCommands).graph.WellFormed := by
  have hreachable : ((emptyState {}).applyAll nestedCommands).Reachable :=
    Edited.applyAll (.start (Or.inl ⟨{}, rfl⟩)) _
  exact ⟨hreachable, by decide +kernel, reachable_wellFormed hreachable⟩

end Draft
end Workflow
