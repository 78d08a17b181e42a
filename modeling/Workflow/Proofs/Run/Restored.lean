import Workflow.Proofs.Edit.Restored
import Workflow.Proofs.Likeness.Problems
import Workflow.Proofs.Run.Basic
import Workflow.Proofs.Tidy.Branching
import Workflow.Proofs.Tidy.Import

/-!
# Inserting a block and removing it again

On a run without edges of a forced kind every graph is tidy.  So the edge that an insertion takes
away is the only one between its ends, and what is known of its kind and of its branch is enough
to make it again.
-/

namespace Workflow

/-- What an edge is apart from its id. -/
def Edge.unnamed (e : Edge) : Edge :=
  { e with id := "" }

/-- The nodes are the same and in the same order, and the edges are the same up to their ids and
their order. -/
structure Graph.Restores (g' g : Graph) : Prop where
  nodes : g'.nodes = g.nodes
  edges : (g'.edges.map Edge.unnamed).Perm (g.edges.map Edge.unnamed)

/-!
# The edge between two neighbours
-/

namespace Graph

variable {g : Graph}

theorem not_doubled (hids : g.shape.ids.Nodup)
    (hdistinct : ∀ id c, g.conditional? id = some c -> c.branchIds.Nodup)
    (tag : Option BranchTag) : ¬ Doubled g.shape.slots tag := by
  rintro ⟨x, hx, branches, b, hrole, -, hduplicate⟩
  obtain ⟨block, hb, hblock⟩ := block?_of_slot hids hx (hrole ▸ rfl)
  cases block with
  | leaf l => cases hblock.trans hrole
  | loop a => cases hblock.trans hrole
  | conditional c =>
      cases hblock.trans hrole
      exact List.nodup_iff_forall_not_duplicate.1
        (hdistinct x.id c (conditional?_eq_some.2 hb)) b hduplicate

theorem Tidy.exists_filter_link (ht : g.Tidy) {l : Link} (hl : l ∈ g.shape.links)
    (hsingle : ¬ Doubled g.shape.slots l.tag) :
    ∃ e, e.link = l ∧ g.edges.filter (fun e => e.link = l) = [e] := by
  obtain ⟨e, he, rfl⟩ := mem_links.1 hl
  have hmem : e ∈ g.edges.filter fun f => f.link = e.link := List.mem_filter.2 ⟨he, by simp⟩
  have hpairs := ht.single
  rw [shape, List.pairwise_map] at hpairs
  have hlinks : ∀ f ∈ g.edges.filter (fun f => f.link = e.link), f.link = e.link := fun f hf => by
    simpa using (List.mem_filter.1 hf).2
  have hpairs := hpairs.sublist (List.filter_sublist (p := fun f => f.link = e.link))
  cases hfilter : g.edges.filter (fun f => f.link = e.link) with
  | nil =>
      rw [hfilter] at hmem
      cases hmem
  | cons f rest =>
      rw [hfilter] at hlinks hpairs
      cases rest with
      | nil => exact ⟨f, hlinks f List.mem_cons_self, rfl⟩
      | cons f' rest =>
          have hf := hlinks f List.mem_cons_self
          have hf' := hlinks f' (List.mem_cons_of_mem _ List.mem_cons_self)
          have hdoubled := (List.pairwise_cons.1 hpairs).1 f' List.mem_cons_self
            (hf.trans hf'.symm)
          exact absurd (hf ▸ hdoubled) hsingle

end Graph

namespace Draft

theorem inGap_iff {p n : String} {tag : Option BranchTag} {e : Edge} :
    inGap p n tag e <-> e.link = ⟨p, n, tag⟩ := by
  simp [inGap, Edge.link, and_assoc]

section Insert

variable {d : Draft} {run : Scope -> List String} {a : Anchor} {p n : String} {u v : List String}
  (h : d.Laid run) (ht : d.graph.Tidy) (hvalid : a.isValid d.graph)

include h hvalid in
theorem hidden_eq_isHiddenBranch (hshown : d.graph.ShowsAll) {e : Edge} (he : e ∈ d.graph.edges)
    (htag : e.tag = a.tag) (hseen : e.tag = none -> e.hidden = false) :
    e.hidden = a.tag.any d.graph.isHiddenBranch := by
  cases hatag : a.tag with
  | none => exact hseen (htag.trans hatag)
  | some t =>
      obtain ⟨c, hc⟩ := exists_conditional_of_tag hvalid hatag
      obtain ⟨m, hm, hmid, hmc⟩ := Graph.exists_node_of_conditional? hc
      have hnew := (h.fits_of_isValid hvalid t hatag).2 m hm hmid c hmc
      have hold := (hshown t.conditional c hc).2 e he t.branch (htag.trans hatag)
      rw [← hatag]
      exact Bool.eq_iff_iff.2 (hold.trans hnew.symm)

section Between

variable (hp : a.previous = some p) (hn : a.next = some n)
  (hrun : run a.place = u ++ p :: n :: v) (hdangling : d.graph.dangling = [])
  (hdistinct : ∀ id c, d.graph.conditional? id = some c -> c.branchIds.Nodup)
  (hshown : d.graph.ShowsAll) (stem : String) (kind : Kind)
include h ht hvalid hp hn hrun

include hdistinct in
omit hp hn in
theorem exists_filter_inGap : ∃ gap ∈ d.graph.edges, gap.link = ⟨p, n, a.tag⟩ ∧
    d.graph.edges.filter (inGap p n a.tag) = [gap] := by
  obtain ⟨hs, -⟩ := (Anchor.isValid_iff h.shape).1 hvalid
  have hlink := ((h.shape.adjacent_iff hs).1 ⟨u, v, hrun⟩).1
  rw [← a.tag_eq] at hlink
  obtain ⟨gap, hgaplink, hgap⟩ := ht.exists_filter_link hlink
    (Graph.not_doubled h.shape.distinct hdistinct a.tag)
  have hfilter : d.graph.edges.filter (inGap p n a.tag) = [gap] := by
    rw [← hgap]
    exact List.filter_congr fun f _ => Bool.eq_iff_iff.2 (by simp [inGap_iff])
  have hmem : gap ∈ d.graph.edges.filter (inGap p n a.tag) := hfilter ▸ List.mem_singleton.2 rfl
  exact ⟨gap, List.mem_of_mem_filter hmem, hgaplink, hfilter⟩

theorem kindInto_insertBlock {gap : Edge} (hgap : gap ∈ d.graph.edges)
    (hgaplink : gap.link = ⟨p, n, a.tag⟩) :
    (d.insertBlock stem kind a).2.graph.kindInto n a.tag = gap.kind := by
  have hids := (h.insertBlock_of_run hvalid hp hn hrun stem kind).shape.distinct
  have hslots : d.graph.shape.slots ⊆ (d.insertBlock stem kind a).2.graph.shape.slots := by
    refine List.map_subset _ ?_
    rw [nodes_insertBlock hvalid hp hn stem kind]
    exact List.subset_append_left _ _
  have hgaptarget : gap.target = n := congrArg Link.target hgaplink
  have htarget : n ∈ d.graph.shape.ids := hgaptarget ▸ h.shape.target_mem (Graph.link_mem hgap)
  have hruled : Edge.Ruled _ ⟨gap.id, p, n, _, a.tag, false⟩ :=
    Graph.ruled_kindInto hids (List.map_subset _ hslots htarget) (fun _ => rfl) gap.id p
  exact ((ht.ruled gap hgap).mono hslots).kind_eq hruled hids (congrArg Link.tag hgaplink).symm
    hgaptarget.symm

include hdangling hdistinct hshown in
/-- A block is removed again without a trace. -/
theorem restores_removeSubtree_insertBlock :
    ((d.insertBlock stem kind a).2.graph.removeSubtree (d.supply.upcoming 1)).Restores d.graph where
  nodes := nodes_removeSubtree_insertBlock h hvalid hp hn hrun stem kind hdangling
  edges := by
    obtain ⟨gap, hgapmem, hgaplink, hgap⟩ := exists_filter_inGap h ht hvalid hrun hdistinct
    obtain ⟨e, hedges, helink, hehidden, hekind⟩ :=
      exists_edges_removeSubtree_insertBlock h hvalid hp hn hrun stem kind
    have hkind : e.kind = gap.kind :=
      hekind.trans (kindInto_insertBlock h ht hvalid hp hn hrun stem kind hgapmem hgaplink)
    have hhidden : e.hidden = gap.hidden := by
      rw [hehidden, hidden_eq_isHiddenBranch h hvalid hshown hgapmem (congrArg Link.tag hgaplink)]
      exact fun hnone => ((Edge.ruled_of_untagged hnone).1 (ht.ruled gap hgapmem)).1
    have hsame : e.unnamed = gap.unnamed := by
      simp only [Edge.link, Link.mk.injEq] at helink hgaplink
      simp only [Edge.unnamed, helink, hgaplink, hkind, hhidden]
    have hmap : ((d.insertBlock stem kind a).2.graph.removeSubtree (d.supply.upcoming 1)).edges.map
        Edge.unnamed = ((d.graph.edges.filter fun e => !inGap p n a.tag e) ++
          d.graph.edges.filter (inGap p n a.tag)).map Edge.unnamed := by
      rw [hedges, hgap, List.map_append, List.map_append, List.map_singleton, List.map_singleton,
        hsame]
    rw [hmap]
    exact (List.perm_append_comm.trans (List.filter_append_perm _ _)).map _

end Between
end Insert

/-!
# Runs
-/

/-- The drafts that editing can reach without giving edges a kind of their own. -/
def ReachableUnforced (d : Draft) : Prop :=
  ∃ (start : Draft) (commands : List (String × Command)), (start.IsEmpty ∨ start.IsImport) ∧
    (∀ entry ∈ commands, entry.2.forcesKind = false) ∧ start.applyAll commands = d

theorem tidy_applyAll (commands : List (String × Command)) : ∀ {d : Draft} {run},
    d.Laid run -> d.graph.Tidy -> (∀ entry ∈ commands, entry.2.forcesKind = false) ->
      (d.applyAll commands).graph.Tidy := by
  induction commands with
  | nil => exact fun _ ht _ => ht
  | cons entry commands ih =>
      intro d run h ht hkinds
      obtain ⟨run', hlaid⟩ := h.apply entry.1 entry.2
      exact ih hlaid (tidy_apply h ht entry.1 (hkinds entry List.mem_cons_self))
        fun entry hentry => hkinds entry (List.mem_cons_of_mem _ hentry)

variable {d : Draft}

theorem ReachableUnforced.reachable (h : d.ReachableUnforced) : d.Reachable := by
  obtain ⟨start, commands, hstart, -, rfl⟩ := h
  exact Edited.applyAll (.start hstart) commands

theorem ReachableUnforced.tidy (h : d.ReachableUnforced) : d.graph.Tidy := by
  obtain ⟨start, commands, hstart, hkinds, rfl⟩ := h
  rcases hstart with ⟨s, rfl⟩ | ⟨definition, s, hbranches, hok⟩
  · exact tidy_applyAll commands (laid_emptyState s) (tidy_emptyState s) hkinds
  · obtain ⟨run, hlaid⟩ := Definition.laid_toDraft? hbranches hok
    exact tidy_applyAll commands hlaid (Definition.tidy_toDraft? hbranches hok) hkinds

/-- A block that is inserted and removed again leaves the graph as it was, if nothing dangles and
every conditional has different branches and shows one of them. -/
theorem removeBlock_insertBlock (h : d.ReachableUnforced) (hblocks : d.graph.hasBlocks)
    (hdangling : d.graph.dangling = [])
    (hdistinct : ∀ id c, d.graph.conditional? id = some c -> c.branchIds.Nodup)
    (hshown : d.graph.ShowsAll) (stem : String) (kind : Kind) (a : Anchor) {id : String}
    (hid : (d.insertBlock stem kind a).1 = [id]) :
    ((d.insertBlock stem kind a).2.removeBlock id).graph.Restores d.graph := by
  obtain ⟨run, hlaid⟩ := h.reachable.laid
  have hvalid : a.isValid d.graph := by
    by_contra hinvalid
    rw [insertBlock, if_neg hinvalid] at hid
    cases hid
  obtain ⟨hs, p, n, hp, hn, u, v, hrun⟩ := (Anchor.isValid_iff hlaid.shape).1 hvalid
  obtain rfl : d.supply.upcoming 1 = id := by
    rw [insertBlock_eq hvalid hp hn] at hid
    exact (List.cons.inj hid).1
  have hnodes := nodes_insertBlock hvalid hp hn stem kind
  have hlaid' := hlaid.insertBlock_of_run hvalid hp hn hrun stem kind
  have hslot := slot_mem_insertBlock hvalid hp hn stem kind
  -- another block is left, so what goes is the subtree
  obtain ⟨m, hm, hblock⟩ := List.any_eq_true.1 hblocks
  have hm' : m ∈ (d.insertBlock stem kind a).2.graph.nodes :=
    hnodes ▸ List.mem_append_left _ hm
  have hout : m.id ∉ (d.insertBlock stem kind a).2.graph.subtree (d.supply.upcoming 1) := by
    rw [mem_subtree_insertBlock hlaid hvalid hp hn hrun stem kind hm', not_not]
    exact List.mem_map_of_mem (Graph.slot_mem hm)
  rw [removeBlock_eq hlaid' hslot (Block.isBlock_role _) (Graph.slot_mem hm')
    (m.isBlock_slot ▸ hblock) hout]
  exact restores_removeSubtree_insertBlock hlaid h.tidy hvalid hp hn hrun hdangling hdistinct
    hshown stem kind

/-- On the branch that is not shown a block reads what the conditional gives out. -/
def unshownCommands : List (String × Command) :=
  [("block", .addNode .conditional ⟨some "#1", some "#2", none, none⟩),
    ("block", .addNode .code ⟨some "#4", some "#5", some "#3", some "branch_2"⟩),
    ("block", .updateBlock "#6" (.leaf (.code { parameterKeys := ["block_1_output"] })))]

theorem dangling_unshownCommands :
    ((emptyState {}).applyAll unshownCommands).graph.dangling = [] := by
  decide +kernel

theorem conditional?_unshownCommands {id : String} {c : Conditional}
    (hc : ((emptyState {}).applyAll unshownCommands).graph.conditional? id = some c) :
    id = "#3" ∧ c = .fresh := by
  have honly : ∀ n ∈ ((emptyState {}).applyAll unshownCommands).graph.nodes,
      n.conditional?.isSome -> n.id = "#3" ∧ n.conditional? = some .fresh := by
    decide +kernel
  obtain ⟨n, hn, rfl, hnc⟩ := Graph.exists_node_of_conditional? hc
  obtain ⟨hid, hfresh⟩ := honly n hn (hnc ▸ rfl)
  exact ⟨hid, Option.some.inj (hnc.symm.trans hfresh)⟩

theorem showsAll_unshownCommands :
    ((emptyState {}).applyAll unshownCommands).graph.ShowsAll := by
  intro id c hc
  obtain ⟨rfl, rfl⟩ := conditional?_unshownCommands hc
  have hedges : ∀ e ∈ ((emptyState {}).applyAll unshownCommands).graph.edges, ∀ t ∈ e.tag,
      (e.hidden <-> t.branch ≠ Conditional.fresh.active) := by
    decide +kernel
  exact ⟨by decide, fun e he b htag => hedges e he ⟨"#3", b⟩ htag⟩

/-- A loop that goes before the block on the branch that is not shown, with its own markers. -/
theorem removeBlock_insertBlock_unshown :
    ∃ d : Draft, d.ReachableUnforced ∧ d.graph.hasBlocks ∧ d.graph.dangling = [] ∧
      d.graph.ShowsAll ∧
      (d.insertBlock "block" .loop ⟨some "#4", some "#6", some "#3", some "branch_2"⟩).1 = ["#7"] ∧
      ((d.insertBlock "block" .loop
          ⟨some "#4", some "#6", some "#3", some "branch_2"⟩).2.removeBlock "#7").graph.Restores
        d.graph := by
  have hreachable : ((emptyState {}).applyAll unshownCommands).ReachableUnforced :=
    ⟨emptyState {}, unshownCommands, Or.inl ⟨{}, rfl⟩, by decide, rfl⟩
  have hblocks : ((emptyState {}).applyAll unshownCommands).graph.hasBlocks := by
    decide +kernel
  have hid : (((emptyState {}).applyAll unshownCommands).insertBlock "block" .loop
      ⟨some "#4", some "#6", some "#3", some "branch_2"⟩).1 = ["#7"] := by
    decide +kernel
  refine ⟨_, hreachable, hblocks, dangling_unshownCommands, showsAll_unshownCommands, hid, ?_⟩
  refine removeBlock_insertBlock hreachable hblocks dangling_unshownCommands ?_
    showsAll_unshownCommands "block" .loop _ hid
  intro id c hc
  obtain ⟨rfl, rfl⟩ := conditional?_unshownCommands hc
  decide

end Draft
end Workflow
