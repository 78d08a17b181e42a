import Workflow.Proofs.Layout.Drawn
import Workflow.Proofs.Run.Basic
import Workflow.Proofs.Shape.Nest
import Workflow.Proofs.Shown.Graph

/-!
# Hidden nodes

The layout comes to the nodes along the branches that are shown.  In a graph that was edited every
node is on a chain of the container around it, so a node is come to unless somewhere around it a
branch is not shown: it is hidden exactly when it, or a container it is nested in, is a block on
such a branch.
-/

namespace Workflow
namespace Graph

variable {g : Graph} {run : Scope -> List String}

/-- A block on a branch that its conditional does not show. -/
structure OffBranch (g : Graph) (id : String) : Prop where
  block : (g.block? id).isSome
  branch : ∃ container c branch, g.conditional? container = some c ∧ branch ∈ c.branchIds ∧
    branch ≠ c.active ∧ id ∈ g.chain (.ofBranch container branch)

/-- The branch that a conditional shows is one of its branches. -/
def ShowsDeclared (g : Graph) : Prop :=
  ∀ n ∈ g.nodes, ∀ c, n.conditional? = some c -> c.active ∈ c.branchIds

/-!
# Scopes around a node
-/

theorem parent_of_shownScope? {id : String} {s : Scope} (hs : g.shownScope? id = some s) :
    s.parent = some id := by
  unfold shownScope? at hs
  split at hs <;> cases hs <;> rfl

theorem active_of_shownScope? {id container branch : String}
    (hs : g.shownScope? id = some (.ofBranch container branch)) :
    ∃ c, g.conditional? container = some c ∧ branch = c.active := by
  unfold shownScope? at hs
  split at hs
  · cases hs
  · next c hc =>
      cases hs
      exact ⟨c, conditional?_eq_some.2 hc, rfl⟩
  · cases hs

section Laid

variable (h : g.shape.Laid run)
include h

theorem exists_shownScope? {x : Slot} (hx : x ∈ g.shape.slots) (hcontainer : x.role.isContainer) :
    ∃ s, g.shownScope? x.id = some s := by
  obtain ⟨b, hb, hrole⟩ := block?_of_slot h.distinct hx (Role.isBlock_of_isContainer hcontainer)
  rw [← hrole] at hcontainer
  cases b with
  | leaf l => cases hcontainer
  | loop a => exact ⟨.body x.id, by rw [shownScope?, hb]⟩
  | conditional c => exact ⟨.ofBranch x.id c.active, by rw [shownScope?, hb]⟩

theorem mem_run_of_marker {x : Slot} (hx : x ∈ g.shape.slots) (hmarker : x.role.isBlock = false)
    {s : Scope} (hs : g.shape.HasScope s) (hparent : s.parent = x.parent) : x.id ∈ run s := by
  obtain ⟨start, blocks, marker, hrun, hstart, hend, -⟩ := (h.runs s hs).ends
  rw [hparent] at hstart hend
  obtain ⟨id, p, r⟩ := x
  cases r with
  | start => simp [hrun, (h.start p (h.parents _ hx)).unique hx hstart]
  | insertionMarker => simp [hrun, (h.marker p (h.parents _ hx)).unique hx hend]
  | leaf => cases hmarker
  | loop => cases hmarker
  | conditional branches => cases hmarker

theorem parent_of_standsIn {s : Scope} (hs : g.shape.HasScope s) {id p : String}
    (hid : id ∈ run s) (hin : g.StandsIn id p) : s.parent = some p := by
  obtain ⟨n, hn, rfl, hp⟩ := hin
  exact (h.parent_of_mem_run hs (slot_mem hn) hid).symm.trans hp

theorem OffBranch.scope {id : String} (hoff : g.OffBranch id) {s : Scope}
    (hs : g.shape.HasScope s) (hid : id ∈ run s) :
    ∃ container c branch, g.conditional? container = some c ∧ branch ≠ c.active ∧
      s = .ofBranch container branch := by
  obtain ⟨hblock, container, c, branch, hc, hbranch, hne, hmem⟩ := hoff
  have ht := (hasScope_ofBranch h.distinct).2 ⟨c, hc, Conditional.hasBranch_iff.2 hbranch⟩
  rw [chain_eq h ht] at hmem
  obtain ⟨b, hb⟩ := Option.isSome_iff_exists.1 hblock
  obtain ⟨p, hx⟩ := slot_of_block? hb
  exact ⟨container, c, branch, hc, hne, (h.placed _ hx b.isBlock_role).unique ⟨hs, hid⟩ ⟨ht, hmem⟩⟩

variable (hshows : g.ShowsDeclared)
include hshows

theorem hasScope_of_shownScope? {id : String} {s : Scope} (hs : g.shownScope? id = some s) :
    g.shape.HasScope s := by
  unfold shownScope? at hs
  split at hs
  · next a ha =>
      cases hs
      exact (hasScope_body h.distinct).2 ⟨a, ha⟩
  · next c hc =>
      cases hs
      obtain ⟨n, hn, hb⟩ := Option.bind_eq_some_iff.1 hc
      have hnc : n.conditional? = some c := by
        rw [Node.conditional?, hb]
        rfl
      refine (hasScope_ofBranch h.distinct).2 ⟨c, conditional?_eq_some.2 hc, ?_⟩
      exact Conditional.hasBranch_iff.2 (hshows n (mem_of_node? hn).1 c hnc)
  · cases hs

/-!
# What is drawn
-/

/-- Around what is drawn every branch is shown. -/
theorem not_offBranch_of_drawn {id : String} (hdrawn : g.Drawn (g.chain .root) id) {m : String}
    (hin : Relation.ReflTransGen g.StandsIn id m) : ¬ g.OffBranch m := by
  induction hdrawn with
  | @here id hid =>
      have hs := Shape.hasScope_root g.shape
      rw [chain_eq h hs] at hid
      rcases hin.cases_head with rfl | ⟨p, hp, -⟩
      · intro hoff
        obtain ⟨_, _, _, -, -, hroot⟩ := hoff.scope h hs hid
        cases hroot
      · cases parent_of_standsIn h hs hid hp
  | @inside container id s _ hshown hid ih =>
      have hs := hasScope_of_shownScope? h hshows hshown
      rw [chain_eq h hs] at hid
      rcases hin.cases_head with rfl | ⟨p, hp, hpm⟩
      · intro hoff
        obtain ⟨_, c, branch, hc, hne, rfl⟩ := hoff.scope h hs hid
        obtain ⟨c', hc', hactive⟩ := active_of_shownScope? hshown
        cases hc'.symm.trans hc
        exact hne hactive
      · have hparent := (parent_of_shownScope? hshown).symm.trans (parent_of_standsIn h hs hid hp)
        exact ih (Option.some.inj hparent ▸ hpm)

omit hshows in
theorem exists_scope_of_parent {x : Slot} (hx : x ∈ g.shape.slots) (hblock : x.role.isBlock)
    {p : String} (hparent : x.parent = some p) :
    ∃ b, g.block? p = some b ∧ ∃ s ∈ b.role.scopes p, x.id ∈ g.chain s := by
  obtain ⟨s, ⟨hs, hmem⟩, -⟩ := h.placed x hx hblock
  have hsparent := (h.parent_of_mem_run hs hx hmem).symm.trans hparent
  obtain ⟨b, hb, hscope⟩ := exists_block?_of_hasScope h.distinct hs hsparent
  exact ⟨b, hb, s, hscope, (chain_eq h hs).symm ▸ hmem⟩

/-- A block that is on no branch out of sight is on the chain that its container shows. -/
theorem mem_chain_of_shownScope? {x : Slot} (hx : x ∈ g.shape.slots) {p : String}
    (hparent : x.parent = some p) (hon : ¬ g.OffBranch x.id) {s : Scope}
    (hs : g.shownScope? p = some s) : x.id ∈ g.chain s := by
  have hscope := hasScope_of_shownScope? h hshows hs
  cases hblock : x.role.isBlock with
  | false =>
      rw [chain_eq h hscope]
      exact mem_run_of_marker h hx hblock hscope ((parent_of_shownScope? hs).trans hparent.symm)
  | true =>
      obtain ⟨b, hb, t, ht, hmem⟩ := exists_scope_of_parent h hx hblock hparent
      cases b with
      | leaf l => cases ht
      | loop a =>
          rw [shownScope?, hb] at hs
          cases hs
          rwa [List.mem_singleton.1 ht] at hmem
      | conditional c =>
          rw [shownScope?, hb] at hs
          cases hs
          obtain ⟨branch, hbranch, rfl⟩ := List.mem_map.1 ht
          by_contra hnot
          refine hon ⟨(isSome_block? h.distinct hx).trans hblock, p, c, branch,
            conditional?_eq_some.2 hb, hbranch, ?_, hmem⟩
          rintro rfl
          exact hnot hmem

theorem drawn_of_not_offBranch {x : Slot} (hx : x ∈ g.shape.slots)
    (hon : ∀ m, Relation.ReflTransGen g.StandsIn x.id m -> ¬ g.OffBranch m) :
    g.Drawn (g.chain .root) x.id := by
  induction hrank : g.shape.rank x.id using Nat.strongRecOn generalizing x with
  | ind rank ih =>
      cases hparent : x.parent with
      | none =>
          have hroot := Shape.hasScope_root g.shape
          rw [chain_eq h hroot]
          cases hblock : x.role.isBlock with
          | false => exact .here (mem_run_of_marker h hx hblock hroot hparent.symm)
          | true =>
              obtain ⟨s, ⟨hs, hmem⟩, -⟩ := h.placed x hx hblock
              rw [hs.eq_root ((h.parent_of_mem_run hs hx hmem).symm.trans hparent)] at hmem
              exact .here hmem
      | some p =>
          obtain hnone | ⟨y, hy, hyp, hcontainer⟩ := h.parents x hx
          · cases hparent.symm.trans hnone
          cases hparent.symm.trans hyp
          obtain ⟨s, hs⟩ := exists_shownScope? h hy hcontainer
          have hmem := mem_chain_of_shownScope? h hshows hx hparent (hon x.id .refl) hs
          obtain ⟨n, hn, rfl⟩ := mem_slots.1 hx
          have hin : g.StandsIn n.id y.id := ⟨n, hn, rfl, hparent⟩
          have hdrawn := ih _ (hrank ▸ h.rank_lt hx hparent) hy
            (fun m hm => hon m (hm.head hin)) rfl
          exact .inside hdrawn hs hmem

theorem drawn_iff {n : Node} (hn : n ∈ g.nodes) :
    g.Drawn (g.chain .root) n.id <->
      ∀ m, Relation.ReflTransGen g.StandsIn n.id m -> ¬ g.OffBranch m :=
  ⟨fun hdrawn _ hin => not_offBranch_of_drawn h hshows hdrawn hin,
    drawn_of_not_offBranch h hshows (slot_mem hn)⟩

theorem contains_of_drawn {id : String} (hdrawn : g.Drawn (g.chain .root) id) : g.contains id := by
  have hmem : ∀ {s}, g.shape.HasScope s -> id ∈ g.chain s -> id ∈ g.nodes.map Node.id := by
    intro s hs hid
    rw [chain_eq h hs] at hid
    exact ids_shape g ▸ h.mem_ids_of_mem_run hs hid
  rw [contains_iff]
  cases hdrawn with
  | here hid => exact hmem (Shape.hasScope_root _) hid
  | inside _ hs hid => exact hmem (hasScope_of_shownScope? h hshows hs) hid

end Laid
end Graph

/-!
# The layout
-/

/-- Each node is placed or hidden.  It is hidden when it, or a container around it, is on a branch
that is not shown, so the markers of a container are placed with it. -/
structure Layout.ShowsActive {α : Type} (l : Layout α) (g : Graph) : Prop where
  split : ∀ n ∈ g.nodes, n.id ∈ l.hidden <-> ¬ l.boxes.contains n.id
  known : ∀ id, l.boxes.contains id ∨ id ∈ l.hidden -> g.contains id
  hidden_iff : ∀ n ∈ g.nodes, n.id ∈ l.hidden <->
    ∃ m, Relation.ReflTransGen g.StandsIn n.id m ∧ g.OffBranch m
  markers : ∀ n ∈ g.nodes, l.boxes.contains n.id ->
    ∀ m ∈ g.nodes, m.parent = some n.id -> m.isBlock = false -> l.boxes.contains m.id

theorem Layout.showsActive_ofGraph {g : Graph} {run : Scope -> List String}
    (h : g.shape.Laid run) (hshows : g.ShowsDeclared) {α : Type} [Length α]
    (settings : LayoutSettings α) (sizes : Table (Size α)) :
    (Layout.ofGraph settings g sizes).ShowsActive g := by
  have hdrawn : ∀ id, (ofGraph settings g sizes).boxes.contains id <->
      g.Drawn (g.chain .root) id := fun _ => contains_boxes settings g sizes
  have hhidden : ∀ id, id ∈ (ofGraph settings g sizes).hidden <->
      g.contains id ∧ ¬ g.Drawn (g.chain .root) id := fun _ => mem_hidden settings g sizes
  constructor
  case split => exact (covers_ofGraph settings g sizes).split
  case known =>
    rintro id (hplaced | hid)
    · exact Graph.contains_of_drawn h hshows ((hdrawn _).1 hplaced)
    · exact ((hhidden _).1 hid).1
  case hidden_iff =>
    intro n hn
    rw [hhidden, Graph.drawn_iff h hshows hn]
    push Not
    exact and_iff_right (Graph.contains_of_mem hn)
  case markers =>
    intro n hn hplaced m hm hparent hmarker
    have hon := (Graph.drawn_iff h hshows hn).1 ((hdrawn _).1 hplaced)
    refine (hdrawn _).2 ((Graph.drawn_iff h hshows hm).2 fun c hc => ?_)
    rcases hc.cases_head with rfl | ⟨p, ⟨m', hm', hid, hp⟩, hpc⟩
    · intro hoff
      have hblock := (Graph.isSome_block? h.distinct (Graph.slot_mem hm)).symm.trans hoff.block
      rw [m.isBlock_slot, hmarker] at hblock
      cases hblock
    · have hslot := h.slot_unique (Graph.slot_mem hm') (Graph.slot_mem hm) hid
      have hsame : p = n.id :=
        Option.some.inj ((hp.symm.trans (congrArg Slot.parent hslot)).trans hparent)
      exact hon c (hsame ▸ hpc)

namespace Draft

/-- However a graph was edited, its layout shows the branches that its conditionals show, whatever
the sizes are. -/
theorem layout_showsActive {d : Draft} (h : d.Reachable) (hshows : d.graph.ShowsDeclared)
    {α : Type} [Length α] (settings : LayoutSettings α) (sizes : Table (Size α)) :
    (Layout.ofGraph settings d.graph sizes).ShowsActive d.graph := by
  obtain ⟨run, hlaid⟩ := h.laid
  exact Layout.showsActive_ofGraph hlaid.shape hshows settings sizes

/-- A wait in a loop on the branch of a conditional that is no longer shown. -/
def folded : Draft :=
  (emptyState {}).applyAll
    [("pick", .addNode .conditional ⟨some "#1", some "#2", none, none⟩),
      ("each", .addNode .loop ⟨some "#4", some "#5", some "#3", some "branch_1"⟩),
      ("hold", .addNode .wait ⟨some "#7", some "#8", some "#6", none⟩),
      ("pick", .setActiveBranch "#3" "branch_2")]

theorem reachable_folded : folded.Reachable :=
  reachable_applyAll {} _

theorem showsDeclared_folded : folded.graph.ShowsDeclared := by
  have hall : folded.graph.nodes.all fun n =>
      n.conditional?.all fun c => c.branchIds.contains c.active := by decide +kernel
  intro n hn c hc
  have hactive := List.all_eq_true.1 hall n hn
  rw [hc] at hactive
  exact List.contains_iff_mem.1 hactive

theorem offBranch_folded : folded.graph.OffBranch "#6" where
  block := by decide +kernel
  branch := ⟨"#3", { Conditional.fresh with active := "branch_2" }, "branch_1", by decide +kernel,
    by decide, by decide, by decide +kernel⟩

/-- The wait is hidden although its loop shows it, and the markers of the conditional are placed. -/
theorem layout_showsActive_folded :
    folded.Reachable ∧ folded.graph.ShowsDeclared ∧
      "#9" ∈ (Layout.ofGraph LayoutSettings.standard folded.graph .empty).hidden ∧
      (Layout.ofGraph LayoutSettings.standard folded.graph .empty).boxes.contains "#5" := by
  have hlayout := layout_showsActive reachable_folded showsDeclared_folded
    LayoutSettings.standard .empty
  refine ⟨reachable_folded, showsDeclared_folded, ?_, ?_⟩
  · have hwait : folded.graph.StandsIn "#9" "#6" := by
      unfold Graph.StandsIn
      decide +kernel
    obtain ⟨n, hn, hid⟩ : ∃ n ∈ folded.graph.nodes, n.id = "#9" := by decide +kernel
    rw [← hid, hlayout.hidden_iff n hn]
    exact ⟨"#6", hid.symm ▸ .single hwait, offBranch_folded⟩
  · obtain ⟨n, hn, hid⟩ : ∃ n ∈ folded.graph.nodes, n.id = "#3" := by decide +kernel
    obtain ⟨m, hm, hmid, hparent, hmarker⟩ : ∃ m ∈ folded.graph.nodes,
        m.id = "#5" ∧ m.parent = some "#3" ∧ m.isBlock = false := by decide +kernel
    have hroot : n.id ∈ folded.graph.chain .root := by
      rw [hid]
      decide +kernel
    rw [← hmid]
    refine hlayout.markers n hn ?_ m hm (hid ▸ hparent) hmarker
    exact (Layout.contains_boxes _ _ _).2 (.here hroot)

end Draft
end Workflow
