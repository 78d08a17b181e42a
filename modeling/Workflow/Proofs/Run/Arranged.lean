import Workflow.Proofs.Layout.Column
import Workflow.Proofs.Layout.Displayed
import Workflow.Proofs.Run.WellFormed
import Workflow.Proofs.Shape.Branches

/-!
# Arranged layouts

In a graph that was edited the ids on a displayed chain are those of nodes in one container, also
when the branch that a conditional shows is none of its branches.  So each displayed chain is
stacked as a whole, right inside the container that shows it.
-/

namespace Workflow

/-!
# Owners
-/

namespace Graph

variable {g : Graph} {run : Scope -> List String}

section Laid

variable (h : g.shape.Laid run)
include h

theorem exists_node_of_mem_scope {s : Scope} (hs : g.shape.HasScope s) {i : String}
    (hi : i ∈ g.chain s) : ∃ n ∈ g.nodes, n.id = i ∧ n.parent = s.parent := by
  rw [chain_eq h hs] at hi
  rcases h.slot_of_mem_run hs hi with ⟨x, hx, hid, hparent⟩
  rcases mem_slots.1 hx with ⟨n, hn, rfl⟩
  exact ⟨n, hn, hid, hparent⟩

theorem exists_node_of_mem_branch {conditional branch i : String}
    (hi : i ∈ g.chain (.ofBranch conditional branch)) :
    ∃ n ∈ g.nodes, n.id = i ∧ n.parent = some conditional := by
  rcases mem_chain_cases hi with hhead | ⟨e, he, hadmits, rfl⟩
  · exact hhead
  · rcases (h.exact e.link).1 (link_mem he) with ⟨t, ht, htag, hadjacent⟩
    have hbranch : t = .ofBranch conditional branch :=
      Scope.eq_ofBranch_of_tag (htag.symm.trans (Scope.admits_iff.1 hadmits))
    rw [hbranch] at ht hadjacent
    apply exists_node_of_mem_scope h ht
    rw [chain_eq h ht]
    exact hadjacent.right_mem

theorem owned_of_laid : g.Owned fun i => (g.node? i).bind Node.parent := by
  have howner : ∀ {i : String} {p : Option String},
      (∃ n ∈ g.nodes, n.id = i ∧ n.parent = p) -> (g.node? i).bind Node.parent = p := by
    intro i p hnode
    rcases hnode with ⟨n, hn, rfl, rfl⟩
    rw [node?_eq_some h.distinct hn]
    rfl
  constructor
  case top =>
    intro i hi
    exact howner (exists_node_of_mem_scope h (Shape.hasScope_root _) hi)
  case shown =>
    intro id s hs i hi
    unfold shownScope? at hs
    split at hs
    · next a ha =>
        cases hs
        exact howner (exists_node_of_mem_scope h ((hasScope_body h.distinct).2 ⟨a, ha⟩) hi)
    · cases hs
      -- The branch that is shown need not be declared, and then it is no scope.
      exact howner (exists_node_of_mem_branch h hi)
    · cases hs

end Laid
end Graph

/-!
# Lengths that are not negative
-/

structure Size.IsNonneg (size : Size ℚ) : Prop where
  width : 0 ≤ size.width
  height : 0 ≤ size.height

structure LayoutSettings.IsNonneg (s : LayoutSettings ℚ) : Prop where
  spacing : 0 ≤ s.spacing
  marginX : 0 ≤ s.marginX
  marginTop : 0 ≤ s.marginTop
  marginBottom : 0 ≤ s.marginBottom
  blockSize : s.blockSize.IsNonneg
  markerSize : s.markerSize.IsNonneg

/-- The standard settings. -/
def LayoutSettings.rational : LayoutSettings ℚ where
  spacing := 40
  marginX := 24
  marginTop := 60
  marginBottom := 24
  blockSize := ⟨280, 72⟩
  markerSize := ⟨24, 24⟩

theorem LayoutSettings.isNonneg_rational : rational.IsNonneg where
  spacing := by decide
  marginX := by decide
  marginTop := by decide
  marginBottom := by decide
  blockSize := ⟨by decide, by decide⟩
  markerSize := ⟨by decide, by decide⟩

namespace Layout

variable {s : LayoutSettings ℚ} {sizes : Table (Size ℚ)} {g : Graph}

theorem isNonneg_measuredSize (hsettings : s.IsNonneg)
    (hsizes : ∀ id size, sizes.get? id = some size -> size.IsNonneg) (id : String) :
    (measuredSize s g sizes id).IsNonneg := by
  unfold measuredSize
  cases hsize : sizes.get? id with
  | some size => exact hsizes id size hsize
  | none =>
      change (if _ then s.blockSize else s.markerSize).IsNonneg
      split
      · exact hsettings.blockSize
      · exact hsettings.markerSize

/-!
# Arranged layouts
-/

/-- A whole chain is placed as a column in the middle between two lines, and between two others. -/
def HasColumn (l : Layout ℚ) (spacing : ℚ) (chain : List String) (left right top bottom : ℚ) :
    Prop :=
  ∃ boxes, chain.map l.boxes.get? = boxes.map some ∧
    Column spacing ((left + right) / 2) boxes ∧ ∀ b ∈ boxes, b.Within left right top bottom

/-- The chains that are displayed are columns, the top level inside the extent of the layout and
each other one inside the margins of its container.  A container is not smaller than it was
measured. -/
structure Arranged (l : Layout ℚ) (s : LayoutSettings ℚ) (g : Graph) (sizes : Table (Size ℚ)) :
    Prop where
  top : l.HasColumn s.spacing (g.chain .root) 0 l.size.width 0 l.size.height
  inside : ∀ id scope b, g.shownScope? id = some scope -> l.boxes.get? id = some b ->
    l.HasColumn s.spacing (g.chain scope) s.marginX (b.size.width - s.marginX) s.marginTop
      (b.size.height - s.marginBottom)
  enclosing : ∀ id scope b, g.shownScope? id = some scope -> l.boxes.get? id = some b ->
    (measuredSize s g sizes id).width ≤ b.size.width ∧
      (measuredSize s g sizes id).height ≤ b.size.height

theorem arranged_ofGraph {owner : String -> Option String} (h : g.Owned owner)
    (hsettings : s.IsNonneg)
    (hsizes : ∀ id size, sizes.get? id = some size -> size.IsNonneg) :
    (ofGraph s g sizes).Arranged s g sizes := by
  have hheights : ∀ os, ∀ m ∈ sizesOf s (measuredSize s g sizes) os, 0 ≤ m.2.height :=
    height_nonneg_of_mem_sizesOf s fun id => (isNonneg_measuredSize hsettings hsizes id).height
  constructor
  case top =>
    refine ⟨_, map_get?_root s sizes h, ?_, fun b hb => ?_⟩
    · rw [zero_add]
      exact column_stack s hsettings.spacing (hheights g.outline) _ 0
    · exact within_stackAll s hsettings.spacing (hheights g.outline) hb
  case inside =>
    intro id scope b hs hb
    rcases exists_body s sizes h hs hb with ⟨body, hsize, hget⟩
    rw [hsize]
    refine ⟨_, hget, ?_, fun b hb => ?_⟩
    · rw [add_sub_cancel]
      exact column_stackInside s hsettings.spacing (hheights body) _
    · exact within_stackInside s hsettings.spacing (hheights body) _ hb
  case enclosing =>
    intro id scope b hs hb
    rcases exists_body s sizes h hs hb with ⟨body, hsize, -⟩
    rw [hsize]
    exact measured_le_sizeOf s (measuredSize s g sizes) (.container id body)

end Layout

namespace Draft

/-- However a graph was edited, its layout is arranged, whatever the lengths are that are not
negative. -/
theorem layout_arranged {d : Draft} (h : d.Reachable) {settings : LayoutSettings ℚ}
    (hsettings : settings.IsNonneg) {sizes : Table (Size ℚ)}
    (hsizes : ∀ id size, sizes.get? id = some size -> size.IsNonneg) :
    (Layout.ofGraph settings d.graph sizes).Arranged settings d.graph sizes := by
  rcases h.laid with ⟨run, hlaid⟩
  exact Layout.arranged_ofGraph (Graph.owned_of_laid hlaid.shape) hsettings hsizes

theorem isNonneg_of_get?_insert {id i : String} {size size' : Size ℚ} (hsize : size.IsNonneg)
    (h : (Table.empty.insert id size).get? i = some size') : size'.IsNonneg := by
  rw [Table.get?_insert] at h
  split at h
  · cases h
    exact hsize
  · cases h

/-- A loop in a branch is drawn around its body, although it was measured small. -/
theorem layout_arranged_nested :
    ∃ (d : Draft) (sizes : Table (Size ℚ)) (b : Box ℚ), d.Reachable ∧
      LayoutSettings.rational.IsNonneg ∧
      (∀ id size, sizes.get? id = some size -> size.IsNonneg) ∧
      sizes.get? "#6" = some ⟨10, 10⟩ ∧
      (Layout.ofGraph .rational d.graph sizes).boxes.get? "#6" = some b ∧ b.size = ⟨328, 284⟩ ∧
      (Layout.ofGraph .rational d.graph sizes).HasColumn 40 ["#7", "#9", "#8"]
        24 (328 - 24) 60 (284 - 24) := by
  let d : Draft := (emptyState {}).applyAll nestedCommands
  let sizes : Table (Size ℚ) := Table.empty.insert "#6" ⟨10, 10⟩
  have hreachable : d.Reachable := reachable_applyAll {} nestedCommands
  have hsizes : ∀ id size, sizes.get? id = some size -> size.IsNonneg :=
    fun _ _ => isNonneg_of_get?_insert ⟨by decide, by decide⟩
  have harranged := layout_arranged hreachable LayoutSettings.isNonneg_rational hsizes
  have hbody : d.graph.chain (.body "#6") = ["#7", "#9", "#8"] := by decide +kernel
  have hshown : d.graph.shownScope? "#6" = some (.body "#6") := by decide +kernel
  have hbox : ((Layout.ofGraph .rational d.graph sizes).boxes.get? "#6").map (fun b =>
      (b.size.width, b.size.height)) = some (328, 284) := by decide +kernel
  rcases Option.map_eq_some_iff.1 hbox with ⟨⟨x, y, width, height⟩, hb, hsize⟩
  cases hsize
  have hinside := harranged.inside "#6" (.body "#6") _ hshown hb
  rw [hbody] at hinside
  exact ⟨d, sizes, _, hreachable, LayoutSettings.isNonneg_rational, hsizes, rfl, hb, rfl, hinside⟩

end Draft
end Workflow
