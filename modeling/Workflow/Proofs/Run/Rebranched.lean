import Workflow.Proofs.Run.Branches
import Workflow.Proofs.Run.Recorded
import Workflow.Proofs.Shown.Rebranching

/-!
# Branches after an edit

After an edit a conditional branches as it did before, changed as the command says.  Otherwise it
came in by the edit, which is as it was recorded or as a fresh one.
-/

namespace Workflow

namespace Draft

variable {d : Draft} {run : Scope -> List String} {stem : String} {k : Command} {id : String}

/-- A conditional comes in with the id as it was recorded. -/
def Records (d : Draft) (stem : String) (k : Command) (id : String) (c : Conditional) : Prop :=
  ∃ blocks point r, k = .importRecorded blocks point ∧
    (id, r) ∈ (d.apply stem k).created.zip blocks ∧ r.block = .conditional c

/-- What an edit makes of the conditional with an id. -/
inductive Turns (d : Draft) (stem : String) (k : Command) (id : String) : Prop where
  | gone : (d.apply stem k).draft.graph.conditional? id = none ->
      (∀ c b, d.graph.conditional? id = some c -> k ≠ .removeBranch id b) -> Turns d stem k id
  | made {c' : Conditional} : (d.apply stem k).draft.graph.conditional? id = some c' ->
      c'.branching = Conditional.fresh.branching ->
      (d.graph.conditional? id = none ∨ ∃ kind, k = .retypeNode id kind) -> Turns d stem k id
  | recorded {c c' : Conditional} : d.graph.conditional? id = none ->
      (d.apply stem k).draft.graph.conditional? id = some c' ->
      d.Records stem k id c -> c'.branching = c.branching -> Turns d stem k id
  | kept {c c' : Conditional} : d.graph.conditional? id = some c ->
      (d.apply stem k).draft.graph.conditional? id = some c' ->
      c'.branching = k.rebranch id c.branching -> (∀ kind, k ≠ .retypeNode id kind) ->
      Turns d stem k id

/-!
# Conditionals that are kept
-/

theorem Turns.of_same (hsame : ∀ c', (d.apply stem k).draft.graph.conditional? id = some c' ->
      ∃ c, d.graph.conditional? id = some c ∧ c'.branching = c.branching)
    (hk : ∀ c, d.graph.conditional? id = some c -> k.rebranch id c.branching = c.branching)
    (hremove : ∀ c b, d.graph.conditional? id = some c -> k ≠ .removeBranch id b)
    (hretype : ∀ kind, k ≠ .retypeNode id kind) : d.Turns stem k id := by
  cases hc' : (d.apply stem k).draft.graph.conditional? id with
  | none => exact .gone hc' hremove
  | some c' =>
      rcases hsame c' hc' with ⟨c, hc, hbranching⟩
      exact .kept hc hc' (hbranching.trans (hk c hc).symm) hretype

theorem Turns.of_unchanged (hsame : (d.apply stem k).draft = d)
    (hk : ∀ c, d.graph.conditional? id = some c -> k.rebranch id c.branching = c.branching)
    (hremove : ∀ b, k ≠ .removeBranch id b) (hretype : ∀ kind, k ≠ .retypeNode id kind) :
    d.Turns stem k id := by
  refine .of_same (fun c' hc' => ?_) hk (fun _ b _ => hremove b) hretype
  rw [hsame] at hc'
  exact ⟨c', hc', rfl⟩

theorem Turns.of_inherits (h : d.Laid run)
    (hinherits : (d.apply stem k).draft.graph.Inherits d.graph)
    (hk : ∀ v, k.rebranch id v = v) (hremove : ∀ b, k ≠ .removeBranch id b)
    (hretype : ∀ kind, k ≠ .retypeNode id kind) : d.Turns stem k id :=
  .of_same (fun _ hc' => hinherits.conditional? h.shape.distinct hc') (fun _ _ => hk _)
    (fun _ b _ => hremove b) hretype

theorem Turns.of_inheritsBut {i : String} (h : d.Laid run) (hne : id ≠ i)
    (hinherits : Graph.InheritsBut i (d.apply stem k).draft.graph d.graph)
    (hk : ∀ v, k.rebranch id v = v) (hremove : ∀ b, k ≠ .removeBranch id b)
    (hretype : ∀ kind, k ≠ .retypeNode id kind) : d.Turns stem k id :=
  .of_same (fun _ hc' => hinherits.conditional? h.shape.distinct hne hc') (fun _ _ => hk _)
    (fun _ b _ => hremove b) hretype

/-!
# Branches of one conditional
-/

theorem turns_setActiveBranch (h : d.Laid run) (stem i branch id : String) :
    d.Turns stem (.setActiveBranch i branch) id := by
  by_cases hid : id = i
  · subst hid
    cases hc : d.graph.conditional? id with
    | none =>
        refine .gone ?_ fun c b hsome => by cases hc.symm.trans hsome
        show (d.graph.showBranch id branch).conditional? id = none
        rw [Graph.showBranch, hc]
        exact hc
    | some c =>
        by_cases hb : branch ∈ c.branchIds
        · have hc' := Graph.conditional?_showBranch hc (Conditional.hasBranch_iff.2 hb)
          refine .kept hc hc' ?_ (by simp)
          exact (if_pos ⟨rfl, hb⟩).symm
        · have hsame : d.graph.showBranch id branch = d.graph := by
            rw [Graph.showBranch, hc, Option.any_some, if_neg]
            exact mt Conditional.hasBranch_iff.1 hb
          have hc' : (d.graph.showBranch id branch).conditional? id = some c := by
            rw [hsame, hc]
          refine .kept hc hc' ?_ (by simp)
          exact (if_neg fun hand => hb hand.2).symm
  · have hinherits : Graph.InheritsBut i
        (d.apply stem (.setActiveBranch i branch)).draft.graph d.graph :=
      Graph.inheritsBut_showBranch d.graph i branch
    apply Turns.of_inheritsBut h hid hinherits
    · exact fun v => if_neg fun hand => hid hand.1.symm
    · simp
    · simp

theorem turns_addBranch (h : d.Laid run) (stem i : String) (branch : Branch) (id : String) :
    d.Turns stem (.addBranch i branch) id := by
  by_cases hfresh : ∃ c, d.graph.conditional? i = some c ∧ c.hasBranch branch.id = false
  · rcases hfresh with ⟨c, hc, hb⟩
    rcases addBranch_of_new h hc hb with ⟨hc', hothers, -⟩
    have hinherits : Graph.InheritsBut i (d.apply stem (.addBranch i branch)).draft.graph d.graph :=
      hothers
    by_cases hid : id = i
    · subst hid
      refine .kept hc hc' ?_ (by simp)
      have hnew : branch.id ∉ c.branchIds := by
        rw [← Conditional.hasBranch_iff, hb]
        exact Bool.false_ne_true
      refine Eq.trans ?_ (if_pos ⟨rfl, hnew⟩).symm
      simp [Conditional.branching, Conditional.branchIds]
    · apply Turns.of_inheritsBut h hid hinherits
      · exact fun v => if_neg fun hand => hid hand.1.symm
      · simp
      · simp
  · have hknown : ∀ c, d.graph.conditional? i = some c -> c.hasBranch branch.id = true :=
      fun c hc => Bool.eq_true_of_not_eq_false fun hb => hfresh ⟨c, hc, hb⟩
    refine .of_unchanged (addBranch_of_not hknown) ?_ (by simp) (by simp)
    intro c hc
    apply if_neg
    intro hand
    rcases hand with ⟨rfl, hnew⟩
    exact hnew (Conditional.hasBranch_iff.1 (hknown c hc))

theorem exists_removeBranch {c : Conditional} {branch : String} (h : d.Laid run)
    (hc : d.graph.conditional? id = some c) (hbranch : c.hasBranch branch)
    (hmany : 1 < c.branches.length) :
    ∃ c', (d.removeBranch id branch).graph.conditional? id = some c' ∧
      c'.branchIds = c.branchIds.filter (· ≠ branch) ∧
      c'.active = if c.active = branch then c'.branchIds.headD branch else c.active := by
  rcases Graph.slot_of_block? (Graph.conditional?_eq_some.1 hc) with ⟨p, hslot⟩
  rcases exists_blocks_of_branch h hc hbranch with
    ⟨start, marker, blocks, -, -, -, ⟨-, -, hnodup⟩, hblocks, heq⟩
  rcases laid_removeBlocks blocks h hslot rfl hnodup hblocks with ⟨hemptied, -, -⟩
  have hcleared := nodes_removeBlocks blocks h hslot rfl hnodup hblocks
  have hc' := conditional?_cleared hemptied.shape.distinct hcleared
    (hblocks.container_not_mem h hslot) hc
  rw [removeBranch_eq hc hbranch hmany, heq]
  generalize blocks.foldl Draft.removeBlock d = emptied at hemptied hc' ⊢
  have hids : (emptied.graph.removeBranchEdges id branch).shape.ids.Nodup :=
    hemptied.shape.distinct
  rcases Graph.exists_left_undeclareBranch hids hc' branch with
    ⟨left, hleft, hactive, hcleft, -⟩
  refine ⟨left, hcleft, ?_, hactive⟩
  rw [Conditional.branchIds, hleft, Conditional.branchIds, List.filter_map, List.filter_map,
    List.map_map]
  rfl

theorem inheritsBut_removeBranch (d : Draft) (id branch : String) :
    Graph.InheritsBut id (d.removeBranch id branch).graph d.graph := by
  unfold removeBranch
  split
  · dsimp only
    generalize (d.graph.chain _).filter _ = ids
    apply (Graph.inheritsBut_undeclareBranch _ id branch).trans
    exact (inherits_emptyBranch d id branch ids).but id
  · exact (Graph.Inherits.refl _).but id

theorem turns_removeBranch (h : d.Laid run) (stem i branch id : String) :
    d.Turns stem (.removeBranch i branch) id := by
  by_cases hid : id = i
  · subst hid
    cases hc : d.graph.conditional? id with
    | none =>
        refine .gone ?_ fun c b hsome => by cases hc.symm.trans hsome
        show (d.removeBranch id branch).graph.conditional? id = none
        rw [Draft.removeBranch, hc]
        exact hc
    | some c =>
        have hlength : c.branchIds.length = c.branches.length := List.length_map _
        by_cases hand : branch ∈ c.branchIds ∧ 1 < c.branchIds.length
        · rcases exists_removeBranch h hc (Conditional.hasBranch_iff.2 hand.1)
            (hlength ▸ hand.2) with ⟨c', hc', hids, hactive⟩
          refine .kept hc hc' ?_ (by simp)
          refine Eq.trans ?_ (if_pos ⟨rfl, hand⟩).symm
          rw [Conditional.branching, hactive, hids]
          rfl
        · have hsame : d.removeBranch id branch = d := by
            rw [Draft.removeBranch, hc, Option.any_some, if_neg]
            simpa [Conditional.hasBranch_iff, hlength] using hand
          have hc' : (d.removeBranch id branch).graph.conditional? id = some c := by
            rw [hsame, hc]
          refine .kept hc hc' ?_ (by simp)
          exact (if_neg fun h => hand h.2).symm
  · have hinherits : Graph.InheritsBut i
        (d.apply stem (.removeBranch i branch)).draft.graph d.graph :=
      inheritsBut_removeBranch d i branch
    apply Turns.of_inheritsBut h hid hinherits
    · exact fun v => if_neg fun hand => hid hand.1.symm
    · intro b heq
      exact hid (Command.removeBranch.inj heq).1.symm
    · simp

/-!
# Conditionals that come in
-/

section Splice

variable {a : Anchor} {kind : Option EdgeKind} {row : List (Heading × Block)} (h : d.Laid run)
include h

theorem conditional?_splice_of_mem (hvalid : a.isValid d.graph) {heading : Heading}
    {c : Conditional} (hmem : (id, (heading, .conditional c)) ∈ (d.splice a kind row).1.zip row) :
    d.graph.conditional? id = none ∧
      (d.splice a kind row).2.graph.conditional? id = some c := by
  rcases h.splice kind hvalid row with ⟨run', u, p, n, v, hlaid, -⟩
  rcases exists_nodes_splice d a kind row with ⟨added, hnodes, hrow⟩
  have hids := hlaid.shape.distinct
  have hfresh := hids
  rw [Graph.ids_shape, hnodes] at hfresh
  constructor
  · apply Option.eq_none_iff_forall_ne_some.2
    intro c' hc'
    rcases Graph.exists_node_of_conditional? hc' with ⟨m, hm, rfl, -⟩
    exact (hrow.fresh hfresh).2 m hm (List.of_mem_zip hmem).1
  · have hnode : (⟨id, a.parent, .block heading (.conditional c)⟩ : Node) ∈
        added.filter Node.isBlock := by
      rw [hrow.blocks]
      exact List.mem_map_of_mem hmem
    have hput : (⟨id, a.parent, .block heading (.conditional c)⟩ : Node) ∈
        (d.splice a kind row).2.graph.nodes := by
      rw [hnodes]
      exact List.mem_append_right _ (List.mem_of_mem_filter hnode)
    exact Graph.conditional?_of_mem hids hput

theorem conditional?_splice {c' : Conditional}
    (hc' : (d.splice a kind row).2.graph.conditional? id = some c') :
    d.graph.conditional? id = some c' ∨
      ∃ heading, (id, (heading, .conditional c')) ∈ (d.splice a kind row).1.zip row := by
  rcases exists_nodes_splice d a kind row with ⟨added, hnodes, hrow⟩
  rcases Graph.exists_node_of_conditional? hc' with ⟨m, hm, rfl, hmc⟩
  rw [hnodes] at hm
  rcases List.mem_append.1 hm with hm | hm
  · left
    rw [Graph.conditional?_of_mem h.shape.distinct hm, hmc]
  · right
    have hblock : m ∈ added.filter Node.isBlock := by
      apply List.mem_filter.2
      refine ⟨hm, ?_⟩
      rcases Option.bind_eq_some_iff.1 hmc with ⟨b, hb, -⟩
      rw [Node.isBlock, hb]
      rfl
    rw [hrow.blocks] at hblock
    rcases List.mem_map.1 hblock with ⟨⟨i, heading, b⟩, hzip, rfl⟩
    cases b with
    | leaf l => cases hmc
    | loop a => cases hmc
    | conditional c =>
        cases hmc
        exact ⟨heading, hzip⟩

end Splice

theorem turns_addNode (h : d.Laid run) (stem : String) (kind : Kind) (a : Anchor) (id : String) :
    d.Turns stem (.addNode kind a) id := by
  by_cases hvalid : a.isValid d.graph
  · cases hc' : (d.insertBlock stem kind a).2.graph.conditional? id with
    | none => exact .gone hc' (by simp)
    | some c' =>
        have hput := hc'
        rw [insertBlock, if_pos hvalid] at hput
        rcases conditional?_splice h hput with hc | ⟨heading, hmem⟩
        · exact .kept hc hc' rfl (by simp)
        · have hentry := List.mem_singleton.1 (List.of_mem_zip hmem).2
          have hfresh := branching_of_fresh (congrArg Prod.snd hentry).symm
          exact .made hc' hfresh (Or.inl (conditional?_splice_of_mem h hvalid hmem).1)
  · refine .of_unchanged ?_ (fun _ _ => rfl) (by simp) (by simp)
    show (d.insertBlock stem kind a).2 = d
    rw [insertBlock, if_neg hvalid]

/-!
# Recorded conditionals
-/

theorem exists_conditional?_of_shape {g g' : Graph} (hids : g'.shape.ids.Nodup)
    (hshape : g'.shape = g.shape) {c : Conditional} (hc : g.conditional? id = some c) :
    ∃ c', g'.conditional? id = some c' := by
  rcases Graph.slot_of_block? (Graph.conditional?_eq_some.1 hc) with ⟨p, hslot⟩
  rw [← hshape] at hslot
  rcases Graph.block?_of_slot hids hslot rfl with ⟨b, hb, hrole⟩
  cases b with
  | leaf l => cases hrole
  | loop a => cases hrole
  | conditional c' => exact ⟨c', Graph.conditional?_eq_some.2 hb⟩

theorem mem_zip_iff {α β : Type} {a : α} {b : β} {as : List α} {bs : List β} :
    (a, b) ∈ as.zip bs <-> ∃ i : Nat, as[i]? = some a ∧ bs[i]? = some b := by
  simp only [List.mem_iff_getElem?, List.getElem?_zip_eq_some]

theorem mem_zip_recordedRow {ids labels : List String} {blocks : List RecordedBlock} {b : Block}
    (hlength : labels.length = blocks.length) :
    (∃ heading, (id, (heading, b)) ∈ ids.zip (recordedRow labels blocks)) <->
      ∃ r, (id, r) ∈ ids.zip blocks ∧ r.block = b := by
  simp only [mem_zip_iff, recordedRow, List.getElem?_zipWith_eq_some]
  constructor
  · intro h
    rcases h with ⟨heading, i, hid, label, r, -, hr, heq⟩
    exact ⟨r, ⟨i, hid, hr⟩, congrArg Prod.snd heq⟩
  · intro h
    rcases h with ⟨r, ⟨i, hid, hr⟩, rfl⟩
    rcases List.getElem?_eq_some_iff.1 hr with ⟨hi, -⟩
    exact ⟨_, i, hid, labels[i], r, List.getElem?_eq_getElem (hlength ▸ hi), hr, rfl⟩

theorem insertRecorded_of_refused {blocks : List RecordedBlock} {point : InsertionPoint}
    (hrefused : ¬ (blocks ≠ [] ∧ point.anchor.isValid d.graph)) (stem : String) :
    d.insertRecorded stem blocks point = ([], d) := by
  rw [insertRecorded, if_pos]
  by_cases hblocks : blocks = []
  · simp [hblocks]
  · simp_all

section Import

variable {blocks : List RecordedBlock} {point : InsertionPoint} (h : d.Laid run)
  (hblocks : blocks ≠ []) (hvalid : point.anchor.isValid d.graph)
include h hblocks hvalid

/-- References that are cleared behind an insertion leave the branches as they are. -/
theorem conditional?_insertRecorded (stem id : String) :
    let put := d.splice point.anchor point.edgeKind
      (recordedRow (d.nextLabels stem blocks.length) blocks)
    (d.insertRecorded stem blocks point).1 = put.1 ∧
    (∀ c, put.2.graph.conditional? id = some c ->
      ∃ c', (d.insertRecorded stem blocks point).2.graph.conditional? id = some c' ∧
        c'.branching = c.branching) ∧
    ∀ c', (d.insertRecorded stem blocks point).2.graph.conditional? id = some c' ->
      ∃ c, put.2.graph.conditional? id = some c ∧ c'.branching = c.branching := by
  rw [insertRecorded_eq hblocks hvalid]
  rcases h.splice point.edgeKind hvalid (recordedRow (d.nextLabels stem blocks.length) blocks) with
    ⟨run', u, p, n, v, hlaid, -⟩
  dsimp only
  generalize d.splice point.anchor point.edgeKind _ = put at hlaid ⊢
  have hback : ∀ c', put.2.graph.pruneDangling.conditional? id = some c' ->
      ∃ c, put.2.graph.conditional? id = some c ∧ c'.branching = c.branching :=
    fun c' hc' => (Graph.inherits_pruneDangling _).conditional? hlaid.shape.distinct hc'
  refine ⟨rfl, fun c hc => ?_, hback⟩
  have hshape := Graph.shape_pruneDangling put.2.graph
  rcases exists_conditional?_of_shape (hshape ▸ hlaid.shape.distinct) hshape hc with ⟨c', hc'⟩
  rcases hback c' hc' with ⟨c₁, hc₁, hbranching⟩
  cases hc.symm.trans hc₁
  exact ⟨c', hc', hbranching⟩

theorem conditional?_insertRecorded_of_mem {stem : String} {r : RecordedBlock} {c : Conditional}
    (hmem : (id, r) ∈ (d.insertRecorded stem blocks point).1.zip blocks)
    (hblock : r.block = .conditional c) : d.graph.conditional? id = none ∧
      ∃ c', (d.insertRecorded stem blocks point).2.graph.conditional? id = some c' ∧
        c'.branching = c.branching := by
  rcases conditional?_insertRecorded h hblocks hvalid stem id with ⟨hids, hforth, -⟩
  rw [hids] at hmem
  have hlength := d.length_nextLabels stem blocks.length
  rcases (mem_zip_recordedRow hlength).2 ⟨r, hmem, hblock⟩ with ⟨heading, hrow⟩
  rcases conditional?_splice_of_mem h hvalid hrow with ⟨hnone, hput⟩
  exact ⟨hnone, hforth c hput⟩

end Import

theorem Records.exists_branching {c : Conditional} (hr : d.Records stem k id c)
    (h : d.Laid run) : d.graph.conditional? id = none ∧
      ∃ c', (d.apply stem k).draft.graph.conditional? id = some c' ∧
        c'.branching = c.branching := by
  rcases hr with ⟨blocks, point, r, rfl, hmem, hblock⟩
  by_cases haccepted : blocks ≠ [] ∧ point.anchor.isValid d.graph
  · exact conditional?_insertRecorded_of_mem h haccepted.1 haccepted.2 hmem hblock
  · have hnone : (d.apply stem (.importRecorded blocks point)).created = [] :=
      congrArg Prod.fst (insertRecorded_of_refused haccepted stem)
    rw [hnone] at hmem
    cases hmem

theorem turns_importRecorded (h : d.Laid run) (stem : String) (blocks : List RecordedBlock)
    (point : InsertionPoint) (id : String) : d.Turns stem (.importRecorded blocks point) id := by
  by_cases haccepted : blocks ≠ [] ∧ point.anchor.isValid d.graph
  · rcases haccepted with ⟨hblocks, hvalid⟩
    cases hc' : (d.insertRecorded stem blocks point).2.graph.conditional? id with
    | none => exact .gone hc' (by simp)
    | some c' =>
        rcases conditional?_insertRecorded h hblocks hvalid stem id with ⟨hids, -, hback⟩
        rcases hback c' hc' with ⟨c, hc, hbranching⟩
        rcases conditional?_splice h hc with hold | ⟨heading, hmem⟩
        · exact .kept hold hc' hbranching (by simp)
        · have hlength := d.length_nextLabels stem blocks.length
          rcases (mem_zip_recordedRow hlength).1 ⟨heading, hmem⟩ with ⟨r, hr, hblock⟩
          rw [← hids] at hr
          have hrecords : d.Records stem (.importRecorded blocks point) id c :=
            ⟨blocks, point, r, rfl, hr, hblock⟩
          exact .recorded (conditional?_splice_of_mem h hvalid hmem).1 hc' hrecords hbranching
  · refine .of_unchanged ?_ (fun _ _ => rfl) (by simp) (by simp)
    exact congrArg Prod.snd (insertRecorded_of_refused haccepted stem)

/-- Every edit takes one of these turns for every id. -/
theorem Laid.turns (h : d.Laid run) (stem : String) (k : Command) (id : String) :
    d.Turns stem k id := by
  cases k with
  | addNode kind a => exact turns_addNode h stem kind a id
  | deleteNode i =>
      exact .of_inherits h (inherits_removeBlock d i) (fun _ => rfl) (by simp) (by simp)
  | retypeNode i kind =>
      by_cases hid : id = i
      · subst hid
        cases hc' : (d.apply stem (.retypeNode id kind)).draft.graph.conditional? id with
        | none => exact .gone hc' (by simp)
        | some c' => exact .made hc' (h.shows_retypeBlock hc').1 (Or.inr ⟨kind, rfl⟩)
      · refine .of_inheritsBut h hid (inheritsBut_retypeBlock d stem i kind) (fun _ => rfl)
          (by simp) ?_
        intro kind' heq
        exact hid (Command.retypeNode.inj heq).1.symm
  | importRecorded blocks point => exact turns_importRecorded h stem blocks point id
  | setActiveBranch i branch => exact turns_setActiveBranch h stem i branch id
  | addBranch i b => exact turns_addBranch h stem i b id
  | removeBranch i branch => exact turns_removeBranch h stem i branch id
  | updateBlock i b =>
      exact .of_inherits h (Graph.inherits_updateBlock d.graph i b) (fun _ => rfl) (by simp)
        (by simp)
  | relabel i label =>
      exact .of_inherits h (Graph.inherits_relabel d.graph i label) (fun _ => rfl) (by simp)
        (by simp)
  | setContinueOnFailure i value =>
      exact .of_inherits h (Graph.inherits_mapHeading d.graph i _) (fun _ => rfl) (by simp)
        (by simp)
  | setModel i model =>
      exact .of_inherits h (Graph.inherits_mapHeading d.graph i _) (fun _ => rfl) (by simp)
        (by simp)

end Draft
end Workflow
