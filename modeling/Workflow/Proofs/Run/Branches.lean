import Workflow.Proofs.Run.Retyped
import Workflow.Proofs.Tidy.Branching

/-!
# Branches that go

A branch goes with the blocks on it and all that is nested in them.  The other branches stay in
their order, and the branch that is shown stays unless it was the one that went.  A branch that
has just been added goes without a trace.
-/

namespace Workflow

/-- A branch of a conditional is gone from a graph with all that stands on it. -/
structure Graph.LosesBranch (g g' : Graph) (id branch : String) (c : Conditional)
    (gone : List String) : Prop where
  within : ∀ n ∈ g.nodes, n.id ∈ gone <-> ∃ m ∈ g.nodes, m.isBlock ∧
    m.id ∈ g.chain (.ofBranch id branch) ∧ Relation.ReflTransGen g.StandsIn n.id m.id
  nodes : ∃ left : Conditional,
    left.branches =
      (c.branches.filter fun b => b.id ≠ branch).map (Branch.without (g.labelsOf gone)) ∧
    (c.active ≠ branch -> left.active = c.active) ∧
    (c.active = branch -> left.branches.head?.map Branch.id = some left.active) ∧
    g'.conditional? id = some left ∧
    g'.nodes = (g.cleared gone).map fun n =>
      if n.id = id then n.mapBlock fun _ => .conditional left else n
  edges : ∀ e ∈ g'.edges, e.tag ≠ some ⟨id, branch⟩ ∧ e.source ∉ gone ∧ e.target ∉ gone
  scopes : ∀ t, t ∈ g'.scopes <->
    t ∈ g.scopes ∧ t ≠ .ofBranch id branch ∧ ∀ p, t.parent = some p -> p ∉ gone
  chains : ∀ t ∈ g'.scopes, g'.chain t = g.chain t

/-!
# Nodes that are left
-/

namespace Graph

variable {g g' : Graph} {run : Scope -> List String}

theorem cleared_nil (g : Graph) : g.cleared [] = g.nodes := by
  have hnone : g.labelsOf [] = [] := by
    apply List.eq_nil_iff_forall_not_mem.2
    intro l hl
    rcases mem_labelsOf.1 hl with ⟨n, -, hin, -⟩
    cases hin
  rw [cleared, hnone, funext Block.without_nil, funext Node.mapBlock_id]
  simp

theorem mem_scopes_cleared {gone : List String} (hnodes : g'.nodes = g.cleared gone) {t : Scope} :
    t ∈ g'.scopes <-> t ∈ g.scopes ∧ ∀ p, t.parent = some p -> p ∉ gone := by
  constructor
  · intro ht
    rcases mem_scopes_cases ht with rfl | ⟨m, hm, b, hb, ht⟩
    · exact ⟨List.mem_cons_self, fun p hp => by cases hp⟩
    · rw [hnodes] at hm
      rcases List.mem_map.1 hm with ⟨n, hn, rfl⟩
      rcases List.mem_filter.1 hn with ⟨hn, hout⟩
      rw [Node.block?_mapBlock] at hb
      rcases Option.map_eq_some_iff.1 hb with ⟨b', hb', rfl⟩
      rw [Node.id_mapBlock, bodyScopes_without] at ht
      constructor
      · exact mem_scopes_of_block hn hb' ht
      · intro p hp
        cases (parent_of_mem_bodyScopes ht).symm.trans hp
        exact of_decide_eq_true hout
  · intro ht
    rcases ht with ⟨ht, hout⟩
    rcases mem_scopes_cases ht with rfl | ⟨n, hn, b, hb, hbody⟩
    · exact List.mem_cons_self
    · have hkept : n.mapBlock (Block.without (g.labelsOf gone)) ∈ g'.nodes := by
        rw [hnodes]
        apply List.mem_map_of_mem
        exact List.mem_filter.2 ⟨hn, decide_eq_true (hout n.id (parent_of_mem_bodyScopes hbody))⟩
      apply mem_scopes_of_block hkept
      · rw [Node.block?_mapBlock, hb, Option.map_some]
      · rwa [Node.id_mapBlock, bodyScopes_without]

theorem block?_of_conditional? (hids : g.shape.ids.Nodup) {id : String} {c : Conditional}
    (hc : g.conditional? id = some c) {n : Node} (hn : n ∈ g.nodes) (hid : n.id = id) :
    n.block? = some (.conditional c) := by
  have hblock := conditional?_eq_some.1 hc
  rwa [← hid, block?_of_mem hids hn] at hblock

theorem nodes_modifyConditional (hids : g.shape.ids.Nodup) {id : String} {c : Conditional}
    (hc : g.conditional? id = some c) (f : Conditional -> Conditional) :
    (g.modifyConditional id f).nodes = g.nodes.map fun n =>
      if n.id = id then n.mapBlock fun _ => .conditional (f c) else n := by
  rw [modifyConditional, nodes_modifyNode (ids_shape g ▸ hids)]
  apply List.map_congr_left
  intro n hn
  split
  · next hid =>
      apply Node.mapBlock_congr
      intro b hb
      cases hb.symm.trans (block?_of_conditional? hids hc hn hid)
      rfl
  · rfl

theorem nodes_modifyConditional_back {id : String} {c : Conditional}
    {f f' : Conditional -> Conditional} (hids : g.shape.ids.Nodup) (hids' : g'.shape.ids.Nodup)
    (hc : g.conditional? id = some c) (hc' : g'.conditional? id = some (f c))
    (hnodes : g'.nodes = (g.modifyConditional id f).nodes) (hback : f' (f c) = c) :
    (g'.modifyConditional id f').nodes = g.nodes := by
  rw [nodes_modifyConditional hids' hc', hback, hnodes, nodes_modifyConditional hids hc,
    List.map_map]
  apply (List.map_congr_left _).trans (List.map_id _)
  intro n hn
  by_cases hid : n.id = id
  · have hsame : n.mapBlock (fun _ => .conditional c) = n.mapBlock fun b => b := by
      apply Node.mapBlock_congr
      intro b hb
      exact Option.some.inj ((block?_of_conditional? hids hc hn hid).symm.trans hb)
    rw [Node.mapBlock_id] at hsame
    simp only [Function.comp_apply, if_pos hid, Node.id_mapBlock, Node.mapBlock_mapBlock]
    exact hsame
  · simp only [Function.comp_apply, if_neg hid, id_eq]

/-!
# A branch that is not declared any more
-/

/-- The conditional that is left shows the branch it did, or else the first one left. -/
theorem exists_left_undeclareBranch {id : String} {c : Conditional} (hids : g.shape.ids.Nodup)
    (hc : g.conditional? id = some c) (branch : String) : ∃ left : Conditional,
      left.branches = (c.branches.filter fun b => b.id ≠ branch) ∧
      left.active = (if c.active = branch then left.branchIds.headD branch else c.active) ∧
      (g.undeclareBranch id branch).conditional? id = some left ∧
      (g.undeclareBranch id branch).nodes = g.nodes.map fun n =>
        if n.id = id then n.mapBlock fun _ => .conditional left else n := by
  have hrest : (c.branches.filter fun b => b.id != branch) =
      c.branches.filter fun b => b.id ≠ branch := by
    apply List.filter_congr
    intro b _
    by_cases hb : b.id = branch <;> simp [hb]
  generalize (c.branches.filter fun b => b.id ≠ branch) = rest at hrest
  let f : Conditional -> Conditional := fun c => { c with branches := rest }
  have hdeclared : (g.modifyConditional id f).conditional? id = some (f c) :=
    conditional?_modifyConditional hc
  have hnodes := nodes_modifyConditional hids hc f
  unfold undeclareBranch
  rw [hc]
  dsimp only
  rw [hrest]
  by_cases hactive : c.active = branch
  · simp only [if_pos (beq_iff_eq.2 hactive), if_pos hactive]
    cases rest with
    | nil => exact ⟨f c, rfl, hactive, hdeclared, hnodes⟩
    | cons b bs =>
        have hhas : (f c).hasBranch b.id :=
          Conditional.hasBranch_iff.2 (List.mem_map_of_mem List.mem_cons_self)
        have hids' : (g.modifyConditional id f).shape.ids.Nodup := by
          rwa [ids_modifyConditional]
        refine ⟨{ f c with active := b.id }, rfl, rfl, conditional?_showBranch hdeclared hhas, ?_⟩
        show ((g.modifyConditional id f).showBranch id b.id).nodes = _
        rw [showBranch_eq hdeclared hhas]
        show ((g.modifyConditional id f).modifyConditional id _).nodes = _
        rw [nodes_modifyConditional hids' hdeclared, hnodes, List.map_map]
        apply List.map_congr_left
        intro n _
        by_cases hid : n.id = id
        · simp [hid, Node.mapBlock_mapBlock]
        · simp [hid]
  · simp only [if_neg (mt beq_iff_eq.1 hactive), if_neg hactive]
    exact ⟨f c, rfl, rfl, hdeclared, hnodes⟩

theorem mem_scopes_dropBranch {id branch : String} {c : Conditional} (h : g.shape.Nested)
    (hc : g.conditional? id = some c) (hbranch : branch ∈ c.branchIds) {t : Scope} :
    t ∈ ((g.removeBranchEdges id branch).undeclareBranch id branch).scopes <->
      t ∈ g.scopes ∧ t ≠ .ofBranch id branch := by
  rcases slot_of_block? (conditional?_eq_some.1 hc) with ⟨p, hslot⟩
  rw [mem_scopes, mem_scopes, shape_dropBranch h.distinct hc, Shape.hasScope_declare_iff h hslot]
  constructor
  · intro ht
    rcases ht with ⟨ht, hkept⟩ | ⟨b, hb, hnew, -⟩
    · exact ⟨ht, hkept branch hbranch (by simp)⟩
    · exact absurd (List.mem_of_mem_filter hb) hnew
  · intro ht
    refine Or.inl ⟨ht.1, ?_⟩
    intro b hb hnot heq
    have hsame : b = branch := by
      by_contra hne
      exact hnot (List.mem_filter.2 ⟨hb, decide_eq_true hne⟩)
    exact ht.2 (hsame ▸ heq)

theorem tag_ne_of_mem_dropBranch {id branch : String} {e : Edge}
    (he : e ∈ ((g.removeBranchEdges id branch).undeclareBranch id branch).edges) :
    e.tag ≠ some ⟨id, branch⟩ := by
  intro htag
  rcases exists_of_mem_undeclareBranch he with ⟨e', he', halike⟩
  have htag' : e'.tag = some ⟨id, branch⟩ :=
    (congrArg Link.tag halike.link).symm.trans htag
  have hkept := (List.mem_filter.1 he').2
  simp [Edge.inBranch, htag'] at hkept

end Graph

namespace Draft

variable {d : Draft} {run : Scope -> List String}

/-!
# Blocks that go one after another
-/

/-- Blocks of one container go with all that is nested in them. -/
theorem nodes_removeBlocks {c : Slot} (ids : List String) : ∀ {d : Draft} {run},
    d.Laid run -> c ∈ d.graph.shape.slots -> c.role.isBlock -> ids.Nodup ->
    d.StandInside ids c.id ->
      (ids.foldl removeBlock d).graph.nodes =
        d.graph.cleared (ids.flatMap d.graph.subtree) := by
  induction ids with
  | nil =>
      intro d run _ _ _ _ _
      exact d.graph.cleared_nil.symm
  | cons id ids ih =>
      intro d run h hc hcblock hnodup hids
      rcases List.nodup_cons.1 hnodup with ⟨hid, hrestnodup⟩
      have hrest := hids.tail h hc hcblock hid
      rcases hids id List.mem_cons_self with ⟨x, hx, rfl, hparent, hblock⟩
      rcases removeBlock_inside h hc hcblock hx hparent hblock with ⟨heq, hlaid, hcleft, hkept⟩
      have hnodes : (d.removeBlock x.id).graph.nodes = d.graph.cleared (d.graph.subtree x.id) := by
        rw [heq]
        exact Graph.nodes_removeSubtree h.shape.distinct x.id
      rw [List.foldl_cons, ih hlaid hcleft hcblock hrestnodup hrest, List.flatMap_cons]
      apply Graph.cleared_cleared hnodes
      intro n hn hout
      simp only [List.mem_flatMap]
      apply exists_congr
      intro id'
      apply and_congr_right
      intro hid'
      rcases hids id' (List.mem_cons_of_mem _ hid') with ⟨y, hy, rfl, hyparent, -⟩
      have hyx := (hkept y hy hyparent fun hsame => hid (hsame ▸ hid')).2
      rw [heq]
      exact Graph.mem_subtree_removeSubtree h.shape hx hblock hy hyx
        (List.mem_map_of_mem (Graph.slot_mem hn)) hout

theorem StandInside.container_not_mem {c : Slot} {ids : List String} (h : d.Laid run)
    (hc : c ∈ d.graph.shape.slots) (hids : d.StandInside ids c.id) :
    c.id ∉ ids.flatMap d.graph.subtree := by
  intro hmem
  rcases List.mem_flatMap.1 hmem with ⟨id, hid, hin⟩
  rcases hids id hid with ⟨x, hx, rfl, hparent, -⟩
  rcases Graph.mem_slots.1 hx with ⟨n, hn, rfl⟩
  have hstands : d.graph.StandsIn n.slot.id c.id := ⟨n, hn, rfl, hparent⟩
  have hcycle := (Graph.mem_subtree_iff h.shape.toNested hx hc).1 hin
  exact Nat.lt_irrefl _ (Graph.rank_lt_of_standsIn h.shape.toNested (.tail' hcycle hstands))

/-!
# The edit
-/

theorem removeBranch_eq {id branch : String} {c : Conditional}
    (hc : d.graph.conditional? id = some c) (hbranch : c.hasBranch branch)
    (hmany : 1 < c.branches.length) : d.removeBranch id branch =
      (((d.graph.chain (.ofBranch id branch)).filter fun id =>
        (d.graph.block? id).isSome).foldl removeBlock d).modify fun g =>
          (g.removeBranchEdges id branch).undeclareBranch id branch := by
  rw [removeBranch, hc, Option.any_some, hbranch, decide_eq_true hmany]
  rfl

theorem conditional?_cleared {g g' : Graph} {gone : List String} {id : String} {c : Conditional}
    (hids : g'.shape.ids.Nodup) (hnodes : g'.nodes = g.cleared gone) (hid : id ∉ gone)
    (hc : g.conditional? id = some c) : g'.conditional? id =
      some { c with branches := c.branches.map (Branch.without (g.labelsOf gone)) } := by
  rcases Option.bind_eq_some_iff.1 hc with ⟨n, hnode, hnc⟩
  rcases Graph.mem_of_node? hnode with ⟨hn, rfl⟩
  have hkept : n.mapBlock (Block.without (g.labelsOf gone)) ∈ g'.nodes := by
    rw [hnodes]
    exact List.mem_map_of_mem (List.mem_filter.2 ⟨hn, decide_eq_true hid⟩)
  have hnode' := Graph.node?_eq_some hids hkept
  rw [Node.id_mapBlock] at hnode'
  rw [Graph.conditional?, hnode', Option.bind_some, Node.conditional?, Node.block?_mapBlock]
  rcases Option.bind_eq_some_iff.1 hnc with ⟨b, hb, hbc⟩
  rw [hb]
  cases b with
  | leaf l => cases hbc
  | loop a => cases hbc
  | conditional c' =>
      cases hbc
      rfl

section OnBranch

variable {id branch start marker : String} {blocks : List String} (h : d.Laid run)
  (hscope : d.graph.shape.HasScope (.ofBranch id branch))
  (hrun : run (.ofBranch id branch) = start :: (blocks ++ [marker]))
  (hblocks : d.StandInside blocks id)
include h hscope hrun hblocks

theorem mem_subtrees_of_branch (heq : ((d.graph.chain (.ofBranch id branch)).filter fun id =>
      (d.graph.block? id).isSome) = blocks) {n : Node} (hn : n ∈ d.graph.nodes) :
    n.id ∈ blocks.flatMap d.graph.subtree <-> ∃ m ∈ d.graph.nodes, m.isBlock ∧
      m.id ∈ d.graph.chain (.ofBranch id branch) ∧
      Relation.ReflTransGen d.graph.StandsIn n.id m.id := by
  rw [List.mem_flatMap]
  constructor
  · intro hin
    rcases hin with ⟨i, hi, hin⟩
    rcases hblocks i hi with ⟨x, hx, rfl, -, hxblock⟩
    rcases Graph.mem_slots.1 hx with ⟨m, hm, rfl⟩
    refine ⟨m, hm, m.isBlock_slot ▸ hxblock, ?_, ?_⟩
    · rw [Graph.chain_eq h.shape hscope, hrun]
      exact List.mem_cons_of_mem _ (List.mem_append_left _ hi)
    · exact (Graph.mem_subtree_iff h.shape.toNested hx (Graph.slot_mem hn)).1 hin
  · intro hin
    rcases hin with ⟨m, hm, hmblock, hmem, hin⟩
    have hslot := Graph.slot_mem hm
    have hsome := Graph.isSome_block? h.shape.distinct hslot
    rw [m.isBlock_slot, hmblock] at hsome
    refine ⟨m.id, heq ▸ List.mem_filter.2 ⟨hmem, hsome⟩, ?_⟩
    exact (Graph.mem_subtree_iff h.shape.toNested hslot (Graph.slot_mem hn)).2 hin

theorem filter_run_of_branch {t : Scope} (ht : d.graph.shape.HasScope t)
    (hne : t ≠ .ofBranch id branch) : (run t).filter (· ∉ blocks) = run t := by
  apply List.filter_eq_self.2
  intro i hi
  apply decide_eq_true
  intro hmem
  rcases hblocks i hmem with ⟨x, hx, rfl, -, hxblock⟩
  have hon : x.id ∈ run (.ofBranch id branch) := by
    rw [hrun]
    exact List.mem_cons_of_mem _ (List.mem_append_left _ hmem)
  exact hne ((h.shape.placed x hx hxblock).unique ⟨ht, hi⟩ ⟨hscope, hon⟩)

end OnBranch

theorem Laid.losesBranch_of_hasBranch {id branch : String} {c : Conditional} (h : d.Laid run)
    (hc : d.graph.conditional? id = some c) (hbranch : c.hasBranch branch)
    (hmany : 1 < c.branches.length)
    (hothers : (c.branches.filter fun b => b.id ≠ branch) ≠ []) :
    ∃ gone, d.graph.LosesBranch (d.removeBranch id branch).graph id branch c gone := by
  rcases Graph.slot_of_block? (Graph.conditional?_eq_some.1 hc) with ⟨p, hslot⟩
  have hscope := (Graph.hasScope_ofBranch h.shape.distinct).2 ⟨c, hc, hbranch⟩
  have hlaid := laid_removeBranch h hc hbranch
  rw [removeBranch_eq hc hbranch hmany]
  rcases exists_blocks_of_branch h hc hbranch with
    ⟨start, marker, blocks, hrun, -, -, ⟨-, -, hnodup⟩, hblocks, heq⟩
  rcases laid_removeBlocks blocks h hslot rfl hnodup hblocks with ⟨hemptied, -, -⟩
  have hcleared := nodes_removeBlocks blocks h hslot rfl hnodup hblocks
  have hc' := conditional?_cleared hemptied.shape.distinct hcleared
    (hblocks.container_not_mem h hslot) hc
  rw [heq] at hlaid ⊢
  generalize blocks.foldl Draft.removeBlock d = emptied at hlaid hemptied hcleared hc' ⊢
  have hfilter : ((c.branches.map (Branch.without (d.graph.labelsOf
      (blocks.flatMap d.graph.subtree)))).filter fun b => b.id ≠ branch) =
        (c.branches.filter fun b => b.id ≠ branch).map
          (Branch.without (d.graph.labelsOf (blocks.flatMap d.graph.subtree))) :=
    List.filter_map
  have hids : (emptied.graph.removeBranchEdges id branch).shape.ids.Nodup :=
    hemptied.shape.distinct
  rcases Graph.exists_left_undeclareBranch hids hc' branch with
    ⟨left, hleft, hactive, hcleft, hnodes⟩
  have hkeptActive : c.active ≠ branch -> left.active = c.active :=
    fun hne => hactive.trans (if_neg hne)
  have hnewActive : c.active = branch -> left.branches.head?.map Branch.id = some left.active := by
    intro heq
    have hnonempty : left.branches ≠ [] := by
      rw [hleft, hfilter]
      exact mt List.map_eq_nil_iff.1 hothers
    rw [hactive, if_pos heq, Conditional.branchIds]
    cases hbranches : left.branches with
    | nil => exact absurd hbranches hnonempty
    | cons b bs => rfl
  have hbranches : branch ∈ (c.branches.map (Branch.without (d.graph.labelsOf
      (blocks.flatMap d.graph.subtree)))).map Branch.id := by
    rw [List.map_map]
    exact Conditional.hasBranch_iff.1 hbranch
  have hscopes : ∀ t, _ := fun t =>
    Graph.mem_scopes_dropBranch hemptied.shape.toNested hc' hbranches (t := t)
  refine ⟨blocks.flatMap d.graph.subtree, ?_⟩
  constructor
  case within => exact fun n hn => mem_subtrees_of_branch h hscope hrun hblocks heq hn
  case nodes =>
    exact ⟨left, hleft.trans hfilter, hkeptActive, hnewActive, hcleft, hcleared ▸ hnodes⟩
  case edges =>
    intro e he
    have hkept : ∀ i ∈ ((emptied.graph.removeBranchEdges id branch).undeclareBranch id
        branch).shape.ids, i ∉ blocks.flatMap d.graph.subtree := by
      intro i hi
      rw [Graph.shape_dropBranch hemptied.shape.distinct hc', Shape.ids, Shape.declare,
        Shape.map_id_withRole, ← Shape.ids, Graph.ids_shape, hcleared] at hi
      rcases List.mem_map.1 hi with ⟨m, hm, rfl⟩
      rcases List.mem_map.1 hm with ⟨n, hn, rfl⟩
      rw [Node.id_mapBlock]
      exact of_decide_eq_true (List.mem_filter.1 hn).2
    exact ⟨Graph.tag_ne_of_mem_dropBranch he,
      hkept _ (hlaid.shape.source_mem (Graph.link_mem he)),
      hkept _ (hlaid.shape.target_mem (Graph.link_mem he))⟩
  case scopes =>
    intro t
    refine (hscopes t).trans ?_
    rw [Graph.mem_scopes_cleared hcleared]
    exact and_right_comm.trans and_assoc
  case chains =>
    intro t ht
    rcases (hscopes t).1 ht with ⟨htkept, hne⟩
    have hold := Graph.mem_scopes.1 ((Graph.mem_scopes_cleared hcleared).1 htkept).1
    rw [Graph.chain_eq hlaid.shape (Graph.mem_scopes.1 ht), Graph.chain_eq h.shape hold]
    exact filter_run_of_branch h hscope hrun hblocks hold hne

/-!
# A branch that was just added
-/

section Added

variable {id : String} {c : Conditional} (h : d.Laid run)
  (hc : d.graph.conditional? id = some c) (r : Branch) (hnew : c.hasBranch r.id = false)
include h hc hnew

theorem tag_ne_of_hasBranch {e : Edge} (he : e ∈ d.graph.edges) : e.tag ≠ some ⟨id, r.id⟩ := by
  intro htag
  rcases h.shape.slots_of_link (Graph.link_mem he) with ⟨s, hs, hstag, -, -⟩
  rw [Scope.eq_ofBranch_of_tag (hstag.symm.trans htag)] at hs
  rcases (Graph.hasScope_ofBranch h.shape.distinct).1 hs with ⟨c', hc', hhas⟩
  cases hc.symm.trans hc'
  rw [hnew] at hhas
  cases hhas

/-- The branch is empty and hidden, so taking it back only takes its edge away. -/
theorem removeBranch_addBranch_of_active (hactive : c.active ∈ c.branchIds) :
    ((d.addBranch id r).removeBranch id r.id).graph = d.graph := by
  let f : Conditional -> Conditional := fun c => { c with branches := c.branches ++ [r] }
  rcases exists_addBranch_eq h hc r hnew with ⟨start, marker, -, -, hadd⟩
  rcases laid_addBranch h hc r hnew with ⟨start', marker', -, -, hlaid⟩
  have hc' : (d.addBranch id r).graph.conditional? id = some (f c) := by
    rw [hadd]
    exact Graph.conditional?_modifyConditional hc
  have hhas : (f c).hasBranch r.id := by simp [f, Conditional.hasBranch]
  have hmany : 1 < (f c).branches.length := by
    have hsome := List.length_pos_of_mem hactive
    simp only [Conditional.branchIds, List.length_map] at hsome
    simpa [f] using hsome
  rcases exists_blocks_of_branch hlaid hc' hhas with ⟨a, b, blocks, hrun, -, -, -, -, heq⟩
  rw [Function.update_self] at hrun
  have hempty : blocks = [] := by
    have hlength := congrArg List.length hrun
    simpa using hlength
  rw [removeBranch_eq hc' hhas hmany, heq, hempty]
  have hothers : ((f c).branches.filter fun b => b.id != r.id) = c.branches := by
    have hkept : (c.branches.filter fun b => b.id != r.id) = c.branches := by
      apply List.filter_eq_self.2
      intro b hb
      have hne := List.any_eq_false.1 hnew b hb
      simpa using hne
    simp [f, hkept]
  have hshown : ((f c).active == r.id) = false := by
    rw [beq_eq_false_iff_ne]
    intro hsame
    have hdeclared := Conditional.hasBranch_iff.2 hactive
    rw [show c.active = r.id from hsame, hnew] at hdeclared
    cases hdeclared
  have hfound : ((d.addBranch id r).graph.removeBranchEdges id r.id).conditional? id =
      some (f c) := hc'
  have hundeclare : ((d.addBranch id r).graph.removeBranchEdges id r.id).undeclareBranch id r.id =
      ((d.addBranch id r).graph.removeBranchEdges id r.id).modifyConditional id fun c' =>
        { c' with branches := c.branches } := by
    rw [Graph.undeclareBranch, hfound]
    dsimp only
    rw [hothers, hshown]
    rfl
  show ((d.addBranch id r).graph.removeBranchEdges id r.id).undeclareBranch id r.id = d.graph
  rw [hundeclare]
  apply Graph.ext
  · apply Graph.nodes_modifyConditional_back h.shape.distinct hlaid.shape.distinct hc hfound _ rfl
    rw [hadd]
    rfl
  · show ((d.addBranch id r).graph.edges.filter fun e => !e.inBranch id r.id) = _
    rw [hadd]
    show (d.graph.edges ++ [_]).filter (fun e : Edge => !e.inBranch id r.id) = _
    have hkept : (d.graph.edges.filter fun e => !e.inBranch id r.id) = d.graph.edges := by
      apply List.filter_eq_self.2
      intro e he
      have hne := tag_ne_of_hasBranch h hc r hnew he
      simpa [Edge.inBranch] using hne
    rw [List.filter_append, hkept]
    simp [Edge.inBranch]

end Added

theorem filter_branches_ne_nil {c : Conditional} (hdistinct : c.branchIds.Nodup)
    (hmany : 2 ≤ c.branches.length) (branch : String) :
    (c.branches.filter fun b => b.id ≠ branch) ≠ [] := by
  intro hnil
  have hall : ∀ b ∈ c.branches, b.id = branch := by
    intro b hb
    have hnot := List.filter_eq_nil_iff.1 hnil b hb
    simpa using hnot
  rcases c with ⟨branches, active⟩
  match branches, hmany with
  | a :: b :: rest, _ =>
      have hsame : a.id = b.id := by
        rw [hall a (by simp), hall b (by simp)]
      simp [Conditional.branchIds, hsame] at hdistinct

/-- Removing a branch takes it away with what stands on it and nothing else, and takes back
adding it. -/
theorem losesBranch_removeBranch (h : d.Reachable) {id : String} {c : Conditional}
    (hc : d.graph.conditional? id = some c) (hdistinct : c.branchIds.Nodup)
    (hmany : 2 ≤ c.branches.length) (hactive : c.active ∈ c.branchIds) :
    (∀ branch ∈ c.branchIds, ∃ gone,
      d.graph.LosesBranch (d.removeBranch id branch).graph id branch c gone) ∧
    ∀ r : Branch, c.hasBranch r.id = false ->
      ((d.addBranch id r).removeBranch id r.id).graph = d.graph := by
  rcases h.laid with ⟨run, hlaid⟩
  constructor
  · intro branch hbranch
    exact hlaid.losesBranch_of_hasBranch hc (Conditional.hasBranch_iff.2 hbranch) hmany
      (filter_branches_ne_nil hdistinct hmany branch)
  · intro r hnew
    exact removeBranch_addBranch_of_active hlaid hc r hnew hactive

/-- On the branch that is shown stands a loop with a task in it, and behind the conditional a
block that reads what the task puts out. -/
def branchingCommands : List (String × Command) :=
  [("block", .addNode .conditional ⟨some "#1", some "#2", none, none⟩),
    ("block", .addNode .loop ⟨some "#4", some "#5", some "#3", some "branch_1"⟩),
    ("block", .addNode .task ⟨some "#7", some "#8", some "#6", none⟩),
    ("block", .addNode .code ⟨some "#3", some "#2", none, none⟩),
    ("block", .updateBlock "#10"
      (.leaf (.code { parameterKeys := ["block_3_output", "name"] })))]

theorem losesBranch_removeBranch_branching :
    ∃ (d : Draft) (c : Conditional), d.Reachable ∧ d.graph.conditional? "#3" = some c ∧
      (∃ gone, d.graph.LosesBranch (d.removeBranch "#3" "branch_1").graph "#3" "branch_1" c gone) ∧
      ((d.addBranch "#3" { id := "x", label := "Otherwise" }).removeBranch "#3" "x").graph =
        d.graph ∧
      (d.removeBranch "#3" "branch_1").graph.nodes.map Node.id =
        ["#1", "#2", "#3", "#4", "#5", "#10"] ∧
      ((d.removeBranch "#3" "branch_1").graph.block? "#10").map Block.parameterKeys =
        some ["name"] := by
  have hreachable : ((emptyState {}).applyAll branchingCommands).Reachable :=
    Edited.applyAll (.start (Or.inl ⟨{}, rfl⟩)) _
  have hc : ((emptyState {}).applyAll branchingCommands).graph.conditional? "#3" =
      some Conditional.fresh := by
    decide +kernel
  have hloses := losesBranch_removeBranch hreachable hc (by decide) (by decide) (by decide)
  refine ⟨_, _, hreachable, hc, ?_, ?_, by decide +kernel, by decide +kernel⟩
  · exact hloses.1 "branch_1" (by decide)
  · exact hloses.2 { id := "x", label := "Otherwise" } (by decide)

end Draft
end Workflow
