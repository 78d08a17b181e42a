import Workflow.Edit.Branching
import Workflow.Proofs.Edit.Removal
import Workflow.Proofs.Shape.Branches

/-!
# Branches come and go on laid out drafts

A new branch has a run from the start marker of its conditional to the insertion marker.
A branch that goes is emptied first, which leaves it with just such a run.
-/

namespace Workflow
namespace Draft

variable {d : Draft} {run : Scope -> List String}

/-!
# A new branch
-/

theorem exists_addBranch_eq {c : Conditional} {id : String} (h : d.Laid run)
    (hc : d.graph.conditional? id = some c) (b : Branch) (hb : c.hasBranch b.id = false) :
    ∃ start marker, ⟨start, some id, .start⟩ ∈ d.graph.shape.slots ∧
      ⟨marker, some id, .insertionMarker⟩ ∈ d.graph.shape.slots ∧
      d.addBranch id b = (d.modify fun g => g.modifyConditional id fun c =>
        { c with branches := c.branches ++ [b] }).addEdge start marker .branch
          (some ⟨id, b.id⟩) true := by
  obtain ⟨p, hslot⟩ := Graph.slot_of_block? (Graph.conditional?_eq_some.1 hc)
  have hbody : d.graph.shape.HasBody (some id) := Or.inr ⟨_, hslot, rfl, rfl⟩
  obtain ⟨start, hstart, -⟩ := h.shape.start _ hbody
  obtain ⟨marker, hmarker, -⟩ := h.shape.marker _ hbody
  obtain ⟨m, hm, rfl⟩ := Option.map_eq_some_iff.1 (Graph.startMarker?_eq h.shape hstart)
  obtain ⟨n, hn, rfl⟩ := Option.map_eq_some_iff.1 (Graph.insertionMarker?_eq h.shape hmarker)
  refine ⟨m.id, n.id, hstart, hmarker, ?_⟩
  simp only [addBranch, hc, Option.any_some, hb, Bool.not_false, if_true, hm, hn]

theorem laid_addBranch {c : Conditional} {id : String} (h : d.Laid run)
    (hc : d.graph.conditional? id = some c) (b : Branch) (hb : c.hasBranch b.id = false) :
    ∃ start marker, ⟨start, some id, .start⟩ ∈ d.graph.shape.slots ∧
      ⟨marker, some id, .insertionMarker⟩ ∈ d.graph.shape.slots ∧
      (d.addBranch id b).Laid (Function.update run (.ofBranch id b.id) [start, marker]) := by
  obtain ⟨p, hslot⟩ := Graph.slot_of_block? (Graph.conditional?_eq_some.1 hc)
  obtain ⟨start, marker, hstart, hmarker, hadd⟩ := exists_addBranch_eq h hc b hb
  refine ⟨start, marker, hstart, hmarker, ?_⟩
  have hnew : b.id ∉ c.branchIds := by
    intro hmem
    obtain ⟨b', hb', heq⟩ := List.mem_map.1 hmem
    have hhas : c.hasBranch b.id := List.any_eq_true.2 ⟨b', hb', by simp [heq]⟩
    rw [hb] at hhas
    cases hhas
  have hshape : (d.addBranch id b).graph.shape =
      d.graph.shape.declare id (c.branchIds ++ [b.id])
        (d.graph.shape.links ++ [⟨start, marker, some ⟨id, b.id⟩⟩]) := by
    rw [hadd, shape_addEdge]
    have hmodify := Graph.shape_modifyConditional_withRole
      (f := fun c => { c with branches := c.branches ++ [b] }) h.shape.distinct hc
    simp only [modify, hmodify, Conditional.branchIds, List.map_append]
    rfl
  constructor
  case shape =>
    rw [hshape]
    refine h.shape.declare hslot hstart hmarker (fun s hs => ?_) (fun c hc hcnew => ?_)
      (fun c hc hcold => ?_) fun l => ?_
    · refine Function.update_of_ne (fun heq => ?_) _ _
      subst heq
      obtain ⟨c', hc', heq⟩ := (Shape.hasScope_ofBranch h.shape.toNested hslot rfl).1 hs
      cases heq
      exact hnew hc'
    · exact absurd (List.mem_append_left _ hc) hcnew
    · simp only [List.mem_append, List.mem_singleton, hcold, false_or] at hc
      rw [hc, Function.update_self]
    · constructor
      · intro hl
        rcases List.mem_append.1 hl with hl | hl
        · exact Or.inl ⟨hl, fun c hc hcnew => absurd (List.mem_append_left _ hc) hcnew⟩
        · exact Or.inr ⟨b.id, by simp, hnew, List.mem_singleton.1 hl⟩
      · rintro (⟨hl, -⟩ | ⟨c, hc, hcold, rfl⟩)
        · exact List.mem_append_left _ hl
        · simp only [List.mem_append, List.mem_singleton, hcold, false_or] at hc
          simp [hc]
  case issued =>
    rw [hshape, Shape.ids, Shape.declare, Shape.map_id_withRole, hadd]
    exact h.issued

theorem Laid.addBranch (h : d.Laid run) (id : String) (b : Branch) :
    ∃ run', (d.addBranch id b).Laid run' := by
  cases hc : d.graph.conditional? id with
  | none => exact ⟨run, by simpa [Draft.addBranch, hc] using h⟩
  | some c =>
      cases hb : c.hasBranch b.id with
      | true => exact ⟨run, by simpa [Draft.addBranch, hc, hb] using h⟩
      | false =>
          obtain ⟨start, marker, -, -, hlaid⟩ := laid_addBranch h hc b hb
          exact ⟨_, hlaid⟩

/-!
# A branch that goes
-/

theorem removeBlock_inside {c x : Slot} (h : d.Laid run) (hc : c ∈ d.graph.shape.slots)
    (hcblock : c.role.isBlock) (hx : x ∈ d.graph.shape.slots) (hparent : x.parent = some c.id)
    (hblock : x.role.isBlock) :
    d.removeBlock x.id = d.modify (fun g => g.removeSubtree x.id) ∧
      (d.removeBlock x.id).Laid (fun t => (run t).filter (· ≠ x.id)) ∧
      c ∈ (d.removeBlock x.id).graph.shape.slots ∧
      ∀ y ∈ d.graph.shape.slots, y.parent = some c.id -> y.id ≠ x.id ->
        y ∈ (d.removeBlock x.id).graph.shape.slots ∧ y.id ∉ x.id :: d.graph.descendants x.id := by
  have hnest := Graph.isNest_descendants h.shape.toNested (List.mem_map_of_mem hx)
  have houtside := hparent ▸ hnest.outside_parent hx hnest.notSelf
  have hcleft : c.id ∉ x.id :: d.graph.descendants x.id := by
    simpa using houtside c.id rfl
  obtain ⟨hlaid, hslots, -⟩ := Graph.laid_removeSubtree h.shape hx hblock
  rw [removeBlock_eq h hx hblock hc hcblock hcleft]
  refine ⟨rfl, ⟨hlaid, fun c hc => ?_⟩, (hslots c).2 ⟨hc, hcleft⟩, fun y hy hyparent hyid => ?_⟩
  · exact h.issued c (ids_subset (fun y hy => ((hslots y).1 hy).1) hc)
  · have hyleft : y.id ∉ x.id :: d.graph.descendants x.id := by
      simpa [hyid] using hnest.not_mem_of_outside hy (hyparent ▸ houtside)
    exact ⟨(hslots y).2 ⟨hy, hyleft⟩, hyleft⟩

/-- The ids are those of blocks that stand in a node. -/
def StandInside (d : Draft) (ids : List String) (container : String) : Prop :=
  ∀ id ∈ ids, ∃ x ∈ d.graph.shape.slots,
    x.id = id ∧ x.parent = some container ∧ x.role.isBlock

theorem StandInside.tail {c : Slot} {id : String} {ids : List String} (h : d.Laid run)
    (hc : c ∈ d.graph.shape.slots) (hcblock : c.role.isBlock)
    (hids : d.StandInside (id :: ids) c.id) (hid : id ∉ ids) :
    (d.removeBlock id).StandInside ids c.id := by
  obtain ⟨x, hx, rfl, hparent, hblock⟩ := hids id List.mem_cons_self
  obtain ⟨-, -, -, hkept⟩ := removeBlock_inside h hc hcblock hx hparent hblock
  intro id' hid'
  obtain ⟨y, hy, rfl, hyparent, hyblock⟩ := hids id' (List.mem_cons_of_mem _ hid')
  have hne : y.id ≠ x.id := fun heq => hid (heq ▸ hid')
  exact ⟨y, (hkept y hy hyparent hne).1, rfl, hyparent, hyblock⟩

/-- Removing blocks that stand in one container keeps the container and the rest of it. -/
theorem laid_removeBlocks {c : Slot} (ids : List String) : ∀ {d : Draft} {run},
    d.Laid run -> c ∈ d.graph.shape.slots -> c.role.isBlock -> ids.Nodup ->
    d.StandInside ids c.id ->
      (ids.foldl removeBlock d).Laid (fun t => (run t).filter (· ∉ ids)) ∧
      c ∈ (ids.foldl removeBlock d).graph.shape.slots ∧
      ∀ y ∈ d.graph.shape.slots, y.parent = some c.id -> y.id ∉ ids ->
        y ∈ (ids.foldl removeBlock d).graph.shape.slots := by
  induction ids with
  | nil =>
      intro d run h hc _ _ _
      have hrun : (fun t => (run t).filter (· ∉ ([] : List String))) = run := by
        funext t
        simp
      rw [hrun]
      exact ⟨h, hc, fun y hy _ _ => hy⟩
  | cons id ids ih =>
      intro d run h hc hcblock hnodup hids
      obtain ⟨hid, hrestnodup⟩ := List.nodup_cons.1 hnodup
      have hrest := hids.tail h hc hcblock hid
      obtain ⟨x, hx, rfl, hparent, hblock⟩ := hids id List.mem_cons_self
      obtain ⟨-, hd, hcleft, hkept⟩ := removeBlock_inside h hc hcblock hx hparent hblock
      obtain ⟨hlaid', hc', hkept'⟩ := ih hd hcleft hcblock hrestnodup hrest
      rw [List.foldl_cons]
      refine ⟨?_, hc', fun y hy hyparent hyids => ?_⟩
      · have hrun : (fun t => ((run t).filter (· ≠ x.id)).filter (· ∉ ids)) =
            fun t => (run t).filter (· ∉ x.id :: ids) := by
          funext t
          rw [List.filter_filter]
          refine List.filter_congr fun c _ => ?_
          simp [Bool.and_comm]
        exact hrun ▸ hlaid'
      · rw [List.mem_cons, not_or] at hyids
        exact hkept' y (hkept y hy hyparent hyids.1).1 hyparent hyids.2

end Draft

namespace Graph

variable {g : Graph} {run : Scope -> List String}

theorem shape_removeBranchEdges (g : Graph) (id branch : String) :
    (g.removeBranchEdges id branch).shape =
      ⟨g.shape.slots, g.shape.links.filter fun l => l.tag ≠ some ⟨id, branch⟩⟩ := by
  simp only [shape, removeBranchEdges, List.filter_map, Edge.inBranch]
  congr 2
  refine List.filter_congr fun e _ => Bool.eq_iff_iff.2 ?_
  rw [Function.comp_apply, Bool.not_eq_true', ← Bool.not_eq_true, beq_iff_eq]
  exact decide_eq_true_iff.symm

theorem shape_undeclareBranch {id branch : String} {c : Conditional}
    (hids : g.shape.ids.Nodup) (hc : g.conditional? id = some c) :
    (g.undeclareBranch id branch).shape =
      g.shape.declare id (c.branchIds.filter (· ≠ branch)) g.shape.links := by
  have hrest : (c.branches.filter fun b => b.id != branch).map Branch.id =
      c.branchIds.filter (· ≠ branch) := by
    rw [Conditional.branchIds, List.filter_map]
    congr 1
    refine List.filter_congr fun b _ => Bool.eq_iff_iff.2 ?_
    simp
  have hmodify := shape_modifyConditional_withRole
    (f := fun c' => { c' with branches := c.branches.filter fun b => b.id != branch }) hids hc
  simp only [Conditional.branchIds] at hmodify hrest ⊢
  rw [hrest] at hmodify
  simp only [undeclareBranch, hc]
  split
  · split
    · exact hmodify
    · rw [shape_showBranch]
      exact hmodify
  · exact hmodify

theorem shape_dropBranch {id branch : String} {c : Conditional}
    (hids : g.shape.ids.Nodup) (hc : g.conditional? id = some c) :
    ((g.removeBranchEdges id branch).undeclareBranch id branch).shape =
      g.shape.declare id (c.branchIds.filter (· ≠ branch))
        (g.shape.links.filter fun l => l.tag ≠ some ⟨id, branch⟩) := by
  have hedges := shape_removeBranchEdges g id branch
  have hids' : (g.removeBranchEdges id branch).shape.ids.Nodup := by
    rw [hedges]
    exact hids
  rw [shape_undeclareBranch hids' hc, hedges]
  rfl

theorem laid_undeclareBranch {id branch start marker : String} {c : Conditional}
    (h : g.shape.Laid run) (hc : g.conditional? id = some c)
    (hstart : ⟨start, some id, .start⟩ ∈ g.shape.slots)
    (hmarker : ⟨marker, some id, .insertionMarker⟩ ∈ g.shape.slots)
    (hrun : run (.ofBranch id branch) = [start, marker]) :
    ((g.removeBranchEdges id branch).undeclareBranch id branch).shape.Laid run := by
  obtain ⟨p, hslot⟩ := slot_of_block? (conditional?_eq_some.1 hc)
  rw [shape_dropBranch h.distinct hc]
  refine h.declare hslot hstart hmarker (fun _ _ => rfl) (fun b hb hbnew => ?_)
    (fun b hb hbold => absurd (List.mem_of_mem_filter hb) hbold) fun l => ?_
  · have hbranch : b = branch := by
      by_contra hne
      exact hbnew (List.mem_filter.2 ⟨hb, by simpa using hne⟩)
    rw [hbranch, hrun]
  · have hgone : (∃ b ∈ c.branchIds.filter (· ≠ branch), b ∉ c.branchIds ∧
        l = ⟨start, marker, some ⟨id, b⟩⟩) <-> False := by
      simp only [iff_false, not_exists, not_and]
      exact fun b hb hbold => absurd (List.mem_of_mem_filter hb) hbold
    rw [hgone, or_false, List.mem_filter, decide_eq_true_eq]
    refine and_congr_right fun hl => ⟨fun htag b hb hbnew => ?_, fun hkept htag => ?_⟩
    · have hbranch : b = branch := by
        by_contra hne
        exact hbnew (List.mem_filter.2 ⟨hb, by simpa using hne⟩)
      rwa [hbranch]
    · obtain ⟨s, hs, hstag, -⟩ := (h.exact l).1 hl
      have hsbranch := Scope.eq_ofBranch_of_tag (hstag.symm.trans htag)
      obtain ⟨b, hb, heq⟩ :=
        (Shape.hasScope_ofBranch h.toNested hslot (hsbranch ▸ rfl)).1 hs
      cases hsbranch.symm.trans heq
      exact hkept branch hb (by simp) htag

end Graph

namespace Draft

variable {d : Draft} {run : Scope -> List String}

theorem exists_blocks_of_branch {c : Conditional} {id branch : String} (h : d.Laid run)
    (hc : d.graph.conditional? id = some c) (hbranch : c.hasBranch branch) :
    ∃ start marker, ∃ blocks : List String,
      run (.ofBranch id branch) = start :: (blocks ++ [marker]) ∧
      ⟨start, some id, .start⟩ ∈ d.graph.shape.slots ∧
      ⟨marker, some id, .insertionMarker⟩ ∈ d.graph.shape.slots ∧
      (start ∉ blocks ∧ marker ∉ blocks ∧ blocks.Nodup) ∧ d.StandInside blocks id ∧
      ((d.graph.chain (.ofBranch id branch)).filter fun id =>
        (d.graph.block? id).isSome) = blocks := by
  have hs : d.graph.shape.HasScope (.ofBranch id branch) :=
    (Graph.hasScope_ofBranch h.shape.distinct).2 ⟨c, hc, hbranch⟩
  obtain ⟨start, blocks, marker, hrun, hstart, hmarker, hblocks⟩ := (h.shape.runs _ hs).ends
  have hnodup := (h.shape.runs _ hs).nodup
  rw [hrun] at hnodup
  obtain ⟨hstartfresh, hrest⟩ := List.nodup_cons.1 hnodup
  obtain ⟨hblocksnodup, -, hdisjoint⟩ := List.nodup_append.1 hrest
  have hstartnot : start ∉ blocks := fun hmem =>
    hstartfresh (List.mem_append_left _ hmem)
  have hmarkernot : marker ∉ blocks := fun hmem => hdisjoint marker hmem marker (by simp) rfl
  refine ⟨start, marker, blocks, hrun, hstart, hmarker,
    ⟨hstartnot, hmarkernot, hblocksnodup⟩, hblocks, ?_⟩
  have hall : ∀ e ∈ blocks, (d.graph.block? e).isSome := by
    intro e he
    obtain ⟨x, hx, rfl, -, hblock⟩ := hblocks e he
    rw [Graph.isSome_block? h.shape.distinct hx, hblock]
  have hstartblock := Graph.isSome_block? h.shape.distinct hstart
  have hmarkerblock := Graph.isSome_block? h.shape.distinct hmarker
  rw [Graph.chain_eq h.shape hs, hrun, List.filter_cons_of_neg (by simp_all [Role.isBlock]),
    List.filter_append, List.filter_eq_self.2 hall]
  simp_all [Role.isBlock]

/-- The blocks on a branch go, and then the branch. -/
theorem laid_removeBranch {c : Conditional} {id branch : String} (h : d.Laid run)
    (hc : d.graph.conditional? id = some c) (hbranch : c.hasBranch branch) :
    Laid ((((d.graph.chain (.ofBranch id branch)).filter fun id =>
        (d.graph.block? id).isSome).foldl removeBlock d).modify fun g =>
      (g.removeBranchEdges id branch).undeclareBranch id branch)
        (fun t => (run t).filter (· ∉ (d.graph.chain (.ofBranch id branch)).filter fun id =>
          (d.graph.block? id).isSome)) := by
  obtain ⟨p, hslot⟩ := Graph.slot_of_block? (Graph.conditional?_eq_some.1 hc)
  obtain ⟨start, marker, blocks, hrun, hstart, hmarker, ⟨hstartnot, hmarkernot, hnodup⟩,
    hblocks, heq⟩ := exists_blocks_of_branch h hc hbranch
  rw [heq]
  obtain ⟨hlaid, hslot', hkept⟩ := laid_removeBlocks blocks h hslot rfl hnodup hblocks
  obtain ⟨b, hb, hrole⟩ := Graph.block?_of_slot hlaid.shape.distinct hslot' rfl
  obtain ⟨c', rfl⟩ : ∃ c', b = .conditional c' := by
    cases b with
    | leaf l => cases hrole
    | loop a => cases hrole
    | conditional c' => exact ⟨c', rfl⟩
  have hrun' : ((run (.ofBranch id branch)).filter (· ∉ blocks)) = [start, marker] := by
    have hnone : blocks.filter (· ∉ blocks) = [] :=
      List.filter_eq_nil_iff.2 fun c hc => by simpa using hc
    rw [hrun, List.filter_cons_of_pos (by simpa using hstartnot), List.filter_append, hnone]
    simp [hmarkernot]
  have hc' : (blocks.foldl removeBlock d).graph.conditional? id = some c' :=
    Graph.conditional?_eq_some.2 hb
  refine ⟨Graph.laid_undeclareBranch hlaid.shape hc' (hkept _ hstart rfl hstartnot)
    (hkept _ hmarker rfl hmarkernot) hrun', fun e he => hlaid.issued e ?_⟩
  have he : e ∈ (((blocks.foldl removeBlock d).graph.removeBranchEdges id
    branch).undeclareBranch id branch).shape.ids := he
  rwa [Graph.shape_dropBranch hlaid.shape.distinct hc', Shape.ids, Shape.declare,
    Shape.map_id_withRole] at he

theorem Laid.removeBranch (h : d.Laid run) (id branch : String) :
    ∃ run', (d.removeBranch id branch).Laid run' := by
  unfold Draft.removeBranch
  split
  · next hcond =>
      obtain ⟨c, hc, hbranch⟩ := (Option.any_eq_true _ _).1 hcond
      simp only [Bool.and_eq_true] at hbranch
      exact ⟨_, laid_removeBranch h hc hbranch.1⟩
  · exact ⟨run, h⟩

end Draft
end Workflow
