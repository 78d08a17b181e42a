import Workflow.Proofs.Edit.Branching
import Workflow.Proofs.Shown.Graph

/-!
# Edits of one conditional

Declaring a branch, showing one, taking one back and making a block another kind change the
branches of one conditional.  All the others are inherited.
-/

namespace Workflow

namespace Graph

/-- What a graph has apart from one conditional and its edges is inherited. -/
structure InheritsBut (id : String) (g' g : Graph) : Prop where
  branchings : ∀ n' ∈ g'.nodes, n'.id ≠ id -> ∀ v, n'.branching? = some v ->
    ∃ n ∈ g.nodes, n.id = n'.id ∧ n.branching? = some v
  tags : ∀ e' ∈ g'.edges, ∀ t, e'.tag = some t -> t.conditional ≠ id ->
    ∃ e ∈ g.edges, e.tag = some t ∧ e.hidden = e'.hidden ∧ e.id = e'.id

variable {g g' g'' : Graph} {off off' : String -> String -> Prop} {id branch : String}

theorem Inherits.but (h : g'.Inherits g) (id : String) : InheritsBut id g' g where
  branchings := fun n' hn' _ => h.branchings n' hn'
  tags := fun e' he' t ht _ => h.tags e' he' t ht

theorem InheritsBut.trans (h : InheritsBut id g'' g') (h' : InheritsBut id g' g) :
    InheritsBut id g'' g where
  branchings := by
    intro n'' hn'' hne v hv
    obtain ⟨n', hn', hid', hv'⟩ := h.branchings n'' hn'' hne v hv
    rw [← hid'] at hne ⊢
    exact h'.branchings n' hn' hne v hv'
  tags := by
    intro e'' he'' t ht hne
    obtain ⟨e', he', ht', hhidden', hid'⟩ := h.tags e'' he'' t ht hne
    obtain ⟨e, he, ht, hhidden, hid⟩ := h'.tags e' he' t ht' hne
    exact ⟨e, he, ht, hhidden.trans hhidden', hid.trans hid'⟩

theorem conditional?_of_mem (hids : g.shape.ids.Nodup) {n : Node} (hn : n ∈ g.nodes) :
    g.conditional? n.id = n.conditional? := by
  rw [conditional?, node?_eq_some hids hn, Option.bind_some]

theorem exists_node_of_conditional? {c : Conditional} (hc : g.conditional? id = some c) :
    ∃ n ∈ g.nodes, n.id = id ∧ n.conditional? = some c := by
  obtain ⟨n, hn, hc⟩ := Option.bind_eq_some_iff.1 hc
  obtain ⟨hmem, hid⟩ := mem_of_node? hn
  exact ⟨n, hmem, hid, hc⟩

theorem ShownBut.at {c : Conditional} (h : g.ShownBut off) (hc : g.conditional? id = some c) :
    g.ShowsBut (off id) id c.active := by
  obtain ⟨n, hn, rfl, hnc⟩ := exists_node_of_conditional? hc
  exact h n hn c hnc

theorem exists_conditional?_of_branching (hids : g.shape.ids.Nodup) {c' : Conditional}
    (hbranchings : ∀ n' ∈ g'.nodes, n'.id = id -> ∀ v, n'.branching? = some v ->
      ∃ n ∈ g.nodes, n.id = n'.id ∧ n.branching? = some v)
    (hc' : g'.conditional? id = some c') :
    ∃ c, g.conditional? id = some c ∧ c'.branching = c.branching := by
  obtain ⟨n', hn', rfl, hnc'⟩ := exists_node_of_conditional? hc'
  have hv' := Node.branching?_eq_some.2 ⟨c', hnc', rfl⟩
  obtain ⟨n, hn, hid, hv⟩ := hbranchings n' hn' rfl _ hv'
  obtain ⟨c, hc, hv⟩ := Node.branching?_eq_some.1 hv
  refine ⟨c, ?_, hv.symm⟩
  rw [← hid, conditional?_of_mem hids hn, hc]

theorem Inherits.conditional? (h : g'.Inherits g) (hids : g.shape.ids.Nodup) {c' : Conditional}
    (hc' : g'.conditional? id = some c') :
    ∃ c, g.conditional? id = some c ∧ c'.branching = c.branching :=
  exists_conditional?_of_branching hids (fun n' hn' _ => h.branchings n' hn') hc'

theorem InheritsBut.conditional? (h : InheritsBut id g' g) (hids : g.shape.ids.Nodup) {i : String}
    (hne : i ≠ id) {c' : Conditional} (hc' : g'.conditional? i = some c') :
    ∃ c, g.conditional? i = some c ∧ c'.branching = c.branching :=
  exists_conditional?_of_branching hids
    (fun n' hn' hid => h.branchings n' hn' (hid.trans_ne hne)) hc'

theorem ShowsBut.mono {off off' : String -> Prop} {active : String} (h : g.ShowsBut off id active)
    (hoff : ∀ i, off i -> off' i) : g.ShowsBut off' id active := by
  intro e he b ht
  exact (h e he b ht).imp_right fun hb => ⟨hb.1, hoff _ hb.2⟩

theorem ShownBut.mono (h : g.ShownBut off) (hoff : ∀ id i, off id i -> off' id i) :
    g.ShownBut off' := by
  intro n hn c hc
  exact (h n hn c hc).mono (hoff n.id)

/-- After a change of one conditional only the edges of that one have to be looked at. -/
theorem ShownBut.inheritBut (h : g.ShownBut off) (hg : InheritsBut id g' g)
    (hids : g'.shape.ids.Nodup) (hoff : ∀ i, i ≠ id -> ∀ j, off i j -> off' i j)
    (hat : ∀ c, g'.conditional? id = some c -> g'.ShowsBut (off' id) id c.active) :
    g'.ShownBut off' := by
  intro n' hn' c' hc'
  by_cases hid : n'.id = id
  · rw [hid]
    apply hat
    rw [← hid, conditional?_of_mem hids hn', hc']
  · obtain ⟨n, hn, hnid, hv⟩ :=
      hg.branchings n' hn' hid _ (Node.branching?_eq_some.2 ⟨c', hc', rfl⟩)
    obtain ⟨c, hc, hv⟩ := Node.branching?_eq_some.1 hv
    have hactive : c.active = c'.active := congrArg Prod.snd hv
    have hshows := h n hn c hc
    rw [hnid, hactive] at hshows
    apply (hshows.mono (hoff _ hid)).inherit
    intro e' he' t ht htid
    exact hg.tags e' he' t ht (htid ▸ hid)

/-!
# Changing a conditional
-/

theorem ids_modifyNode {f : Node -> Node} (hf : ∀ n, (f n).id = n.id) :
    (g.modifyNode id f).shape.ids = g.shape.ids := by
  rw [ids_shape, ids_shape]
  cases hn : g.node? id with
  | none => rw [modifyNode_eq_of_none hn]
  | some n =>
      obtain ⟨u, v, hnodes, hmodify⟩ := modifyNode_eq_of_some hn
      rw [hmodify, hnodes]
      simp only [List.map_append, List.map_cons, hf]

theorem ids_modifyConditional (g : Graph) (id : String) (f : Conditional -> Conditional) :
    (g.modifyConditional id f).shape.ids = g.shape.ids :=
  ids_modifyNode (Node.id_mapBlock _)

theorem conditional?_modifyConditional {f : Conditional -> Conditional} {c : Conditional}
    (hc : g.conditional? id = some c) :
    (g.modifyConditional id f).conditional? id = some (f c) := by
  obtain ⟨n, hn, hc⟩ := Option.bind_eq_some_iff.1 hc
  rw [conditional?, modifyConditional, node?_modifyNode (Node.id_mapBlock _), hn,
    Option.map_some, Option.bind_some]
  obtain ⟨nid, parent, content⟩ := n
  cases content with
  | start => cases hc
  | insertionMarker => cases hc
  | block h b =>
      cases b with
      | leaf l => cases hc
      | loop a => cases hc
      | conditional c' =>
          cases hc
          rfl

theorem inheritsBut_modifyNode {f : Node -> Node} (hf : ∀ n, (f n).id = n.id) :
    InheritsBut id (g.modifyNode id f) g where
  branchings := by
    intro n' hn' hne v hv
    rcases mem_modifyNode hn' with hn | ⟨n, hn, rfl⟩
    · exact ⟨n', hn, rfl, hv⟩
    · exact absurd ((hf n).trans (mem_of_node? hn).2) hne
  tags := (Inherits.refl g).but id |>.tags

theorem exists_of_mem_hideOthers {e' : Edge} (h : e' ∈ (g.hideOthers id branch).edges) :
    ∃ e ∈ g.edges, e'.tag = e.tag ∧ e'.id = e.id ∧ ∀ t, e.tag = some t ->
      e'.hidden = if t.conditional = id then t.branch != branch else e.hidden := by
  obtain ⟨e, he, rfl⟩ := List.mem_map.1 h
  refine ⟨e, he, ?_⟩
  cases hetag : e.tag with
  | none => exact ⟨hetag, rfl, fun t ht => by cases ht⟩
  | some t =>
      simp only [beq_iff_eq, Option.some.injEq, forall_eq']
      split
      · exact ⟨rfl, rfl, rfl⟩
      · exact ⟨hetag, rfl, rfl⟩

theorem inheritsBut_hideOthers (g : Graph) (id branch : String) :
    InheritsBut id (g.hideOthers id branch) g where
  branchings := (Inherits.refl g).but id |>.branchings
  tags := by
    intro e' he' t ht hne
    obtain ⟨e, he, htag, hid, hhidden⟩ := exists_of_mem_hideOthers he'
    rw [htag] at ht
    rw [hhidden t ht, if_neg hne]
    exact ⟨e, he, ht, rfl, hid.symm⟩

theorem shows_hideOthers (g : Graph) (id branch : String) :
    (g.hideOthers id branch).Shows id branch := by
  intro e' he' b ht
  obtain ⟨e, he, htag, -, hhidden⟩ := exists_of_mem_hideOthers he'
  rw [htag] at ht
  rw [hhidden _ ht, if_pos rfl, bne_iff_ne]

/-!
# Showing a branch
-/

theorem showBranch_eq {c : Conditional} (hc : g.conditional? id = some c)
    (hb : c.hasBranch branch) : g.showBranch id branch =
      (g.modifyConditional id fun c => { c with active := branch }).hideOthers id branch := by
  rw [showBranch, hc, Option.any_some, if_pos hb]

theorem conditional?_showBranch {c : Conditional} (hc : g.conditional? id = some c)
    (hb : c.hasBranch branch) :
    (g.showBranch id branch).conditional? id = some { c with active := branch } := by
  rw [showBranch_eq hc hb]
  exact conditional?_modifyConditional hc

theorem conditional?_showBranch_of_ne {i : String} (hne : i ≠ id) :
    (g.showBranch id branch).conditional? i = g.conditional? i := by
  unfold showBranch
  split
  · exact congrArg (Option.bind · Node.conditional?)
      (node?_modifyNode_of_ne (Node.id_mapBlock _) hne)
  · rfl

theorem inheritsBut_showBranch (g : Graph) (id branch : String) :
    InheritsBut id (g.showBranch id branch) g := by
  unfold showBranch
  split
  · exact (inheritsBut_hideOthers _ id branch).trans
      (inheritsBut_modifyNode (Node.id_mapBlock _))
  · exact (Inherits.refl g).but id

theorem shows_showBranch {c : Conditional} (hc : g.conditional? id = some c)
    (hb : c.hasBranch branch) : (g.showBranch id branch).Shows id branch := by
  rw [showBranch_eq hc hb]
  exact shows_hideOthers _ id branch

/-- Whatever the edges of a conditional were like, they are right once a branch is shown. -/
theorem shownBut_showBranch (hids : g.shape.ids.Nodup) (h : g.ShownBut off)
    (hoff : ∀ i j, off i j ->
      (i = id -> ∀ c, g.conditional? id = some c -> c.hasBranch branch = false) -> off' i j) :
    (g.showBranch id branch).ShownBut off' := by
  by_cases hdeclared : ∃ c, g.conditional? id = some c ∧ c.hasBranch branch
  · obtain ⟨c, hc, hb⟩ := hdeclared
    apply h.inheritBut (inheritsBut_showBranch g id branch)
    · rwa [shape_showBranch]
    · exact fun i hne j hj => hoff i j hj fun hid => absurd hid hne
    · intro c' hc'
      rw [conditional?_showBranch hc hb] at hc'
      cases hc'
      exact (shows_showBranch hc hb).but _
  · rw [showBranch, if_neg]
    · apply h.mono
      intro i j hj
      apply hoff i j hj
      intro _ c hc
      exact Bool.eq_false_iff.2 fun hb => hdeclared ⟨c, hc, hb⟩
    · rwa [Option.any_eq_true]

/-!
# Taking a branch back
-/

theorem inheritsBut_undeclareBranch (g : Graph) (id branch : String) :
    InheritsBut id (g.undeclareBranch id branch) g := by
  unfold undeclareBranch
  split
  · exact (Inherits.refl g).but id
  · have hf : ∀ f : Conditional -> Conditional, InheritsBut id (g.modifyConditional id f) g :=
      fun f => inheritsBut_modifyNode (Node.id_mapBlock _)
    dsimp only
    split
    · split
      · exact hf _
      · exact (inheritsBut_showBranch _ id _).trans (hf _)
    · exact hf _

theorem shownBut_undeclareBranch (hids : g.shape.ids.Nodup) (h : g.ShownBut off) :
    (g.undeclareBranch id branch).ShownBut off := by
  unfold undeclareBranch
  cases hc : g.conditional? id with
  | none => exact h
  | some c =>
      dsimp only
      let rest := c.branches.filter fun b => b.id != branch
      let f : Conditional -> Conditional := fun c => { c with branches := rest }
      have hids' : (g.modifyConditional id f).shape.ids.Nodup := by
        rwa [ids_modifyConditional]
      have hf : (g.modifyConditional id f).ShownBut off := by
        apply h.inheritBut (inheritsBut_modifyNode (Node.id_mapBlock _)) hids' fun _ _ _ hj => hj
        intro c' hc'
        cases (conditional?_modifyConditional hc).symm.trans hc'
        exact (h.at hc).inherit fun e he t ht _ => ⟨e, he, ht, rfl, rfl⟩
      split
      · split
        · exact hf
        · exact shownBut_showBranch hids' hf fun i j hj _ => hj
      · exact hf

end Graph

/-- The id of the next edge that is put in. -/
def Supply.nextEdge (s : Supply) : String :=
  s.naming.edge (s.edges + 1)

namespace Draft

variable {d : Draft} {run : Scope -> List String} {off off' : String -> String -> Prop}

/-!
# Drafts
-/

theorem addBranch_of_new {c : Conditional} {id : String} (h : d.Laid run)
    (hc : d.graph.conditional? id = some c) {b : Branch} (hb : c.hasBranch b.id = false) :
    (d.addBranch id b).graph.conditional? id = some { c with branches := c.branches ++ [b] } ∧
    Graph.InheritsBut id (d.addBranch id b).graph d.graph ∧
    (d.addBranch id b).graph.shape.ids = d.graph.shape.ids ∧
    ∀ e ∈ (d.addBranch id b).graph.edges, e ∈ d.graph.edges ∨
      e.tag = some ⟨id, b.id⟩ ∧ e.hidden = true ∧ e.id = d.supply.nextEdge := by
  obtain ⟨start, marker, -, -, hadd⟩ := exists_addBranch_eq h hc b hb
  have hedges : ∀ e ∈ (d.addBranch id b).graph.edges, e ∈ d.graph.edges ∨
      e.tag = some ⟨id, b.id⟩ ∧ e.hidden = true ∧ e.id = d.supply.nextEdge := by
    intro e he
    rw [hadd] at he
    rcases List.mem_append.1 he with he | he
    · exact Or.inl he
    · cases List.mem_singleton.1 he
      exact Or.inr ⟨rfl, rfl, rfl⟩
  refine ⟨?_, ?_, ?_, hedges⟩
  · rw [hadd]
    exact Graph.conditional?_modifyConditional hc
  · constructor
    case branchings =>
      rw [hadd]
      exact (Graph.inheritsBut_modifyNode (Node.id_mapBlock _)).branchings
    case tags =>
      intro e he t ht hne
      rcases hedges e he with hold | ⟨htag, -⟩
      · exact ⟨e, hold, ht, rfl, rfl⟩
      · cases htag.symm.trans ht
        exact absurd rfl hne
  · rw [hadd]
    exact Graph.ids_modifyConditional d.graph id _

theorem addBranch_of_not {id : String} {b : Branch}
    (h : ∀ c, d.graph.conditional? id = some c -> c.hasBranch b.id = true) :
    d.addBranch id b = d := by
  rw [addBranch, if_neg]
  rw [Option.any_eq_true]
  rintro ⟨c, hc, hnew⟩
  rw [h c hc] at hnew
  cases hnew

/-- A branch that is declared anew is hidden, which is right unless it is the one shown. -/
theorem shownBut_addBranch (h : d.Laid run) (hs : d.graph.ShownBut off) (id : String)
    (b : Branch) (hoff : ∀ i j, off i j -> off' i j)
    (hnew : ∀ c, d.graph.conditional? id = some c -> c.hasBranch b.id = false ->
      c.active = b.id -> off' id d.supply.nextEdge) : (d.addBranch id b).graph.ShownBut off' := by
  by_cases hfresh : ∃ c, d.graph.conditional? id = some c ∧ c.hasBranch b.id = false
  · obtain ⟨c, hc, hb⟩ := hfresh
    obtain ⟨hc', hinherits, hids, hedges⟩ := addBranch_of_new h hc hb
    apply (hs.mono hoff).inheritBut hinherits (hids ▸ h.shape.distinct) fun _ _ _ hj => hj
    intro c₁ hc₁
    cases hc'.symm.trans hc₁
    intro e he branch ht
    rcases hedges e he with hold | ⟨htag, hhidden, hid⟩
    · exact (hs.mono hoff).at hc e hold branch ht
    · cases htag.symm.trans ht
      by_cases hactive : c.active = b.id
      · exact Or.inr ⟨hactive.symm, hid ▸ hnew c hc hb hactive⟩
      · exact Or.inl (iff_of_true hhidden fun heq => hactive heq.symm)
  · rw [addBranch_of_not]
    · exact hs.mono hoff
    · intro c hc
      exact Bool.eq_true_of_not_eq_false fun hb => hfresh ⟨c, hc, hb⟩

theorem inherits_emptyState (s : Supply) (g : Graph) : (emptyState s).graph.Inherits g where
  branchings := by
    intro n hn v hv
    have hnone : n.branching? = none := by
      rcases List.mem_cons.1 hn with rfl | hn
      · rfl
      · cases List.mem_singleton.1 hn
        rfl
    cases hnone.symm.trans hv
  tags := by
    intro e he t ht
    cases List.mem_singleton.1 he
    cases ht

theorem inherits_removeBlock (d : Draft) (id : String) :
    (d.removeBlock id).graph.Inherits d.graph := by
  unfold removeBlock
  split
  · exact Graph.Inherits.refl _
  · dsimp only
    split
    · exact Graph.inherits_removeSubtree d.graph id
    · exact inherits_emptyState _ _

theorem inherits_removeBlocks (ids : List String) :
    ∀ d : Draft, (ids.foldl removeBlock d).graph.Inherits d.graph := by
  induction ids with
  | nil => exact fun d => Graph.Inherits.refl _
  | cons id ids ih => exact fun d => (ih _).trans (inherits_removeBlock d id)

theorem exists_laid_removeBlocks (ids : List String) : ∀ {d : Draft} {run : Scope -> List String},
    d.Laid run -> ∃ run', (ids.foldl removeBlock d).Laid run' := by
  induction ids with
  | nil => exact fun h => ⟨_, h⟩
  | cons id ids ih =>
      intro d run h
      obtain ⟨run', hlaid⟩ := h.removeBlock id
      exact ih hlaid

theorem inherits_emptyBranch (d : Draft) (id branch : String) (ids : List String) :
    ((ids.foldl removeBlock d).graph.removeBranchEdges id branch).Inherits d.graph :=
  (Graph.inherits_removeBranchEdges _ _ _).trans (inherits_removeBlocks ids d)

theorem shownBut_removeBranch (h : d.Laid run) (hs : d.graph.ShownBut off) (id branch : String) :
    (d.removeBranch id branch).graph.ShownBut off := by
  unfold removeBranch
  split
  · dsimp only
    generalize (d.graph.chain _).filter _ = ids
    obtain ⟨run', hlaid⟩ := exists_laid_removeBlocks ids h
    apply Graph.shownBut_undeclareBranch
    · exact hlaid.shape.distinct
    · exact hs.inherit (inherits_emptyBranch d id branch ids)
  · exact hs

end Draft
end Workflow
