import Mathlib.Algebra.Order.Field.Rat
import Mathlib.Data.List.Chain
import Mathlib.Tactic.Linarith
import Mathlib.Tactic.Ring
import Workflow.Proofs.Layout.Drawn

/-!
# Columns

With rational numbers for lengths the arithmetic of a layout is exact.  What is stacked then is a
column: a node starts where the one before it ends and the spacing is left free.  A container is
made large enough for the column in it with the margins around it.
-/

namespace Workflow

instance : Length ℚ where
  zero := 0
  add a b := a + b
  sub a b := a - b
  half a := a / 2
  larger a b := max a b

namespace Length

@[simp] theorem add_rat (a b : ℚ) : add a b = a + b := rfl

@[simp] theorem sub_rat (a b : ℚ) : sub a b = a - b := rfl

@[simp] theorem half_rat (a : ℚ) : half a = a / 2 := rfl

end Length

/-- Boxes one below another, at a distance and around one centre. -/
structure Column (spacing centre : ℚ) (boxes : List (Box ℚ)) : Prop where
  spaced : boxes.IsChain fun a b => b.y = a.y + a.size.height + spacing
  centred : ∀ b ∈ boxes, b.x + b.size.width / 2 = centre
  apart : boxes.Pairwise fun a b => a.y + a.size.height + spacing ≤ b.y

/-- A box that does not reach over four lines. -/
structure Box.Within (b : Box ℚ) (left right top bottom : ℚ) : Prop where
  left : left ≤ b.x
  right : b.x + b.size.width ≤ right
  top : top ≤ b.y
  bottom : b.y + b.size.height ≤ bottom

theorem Column.shift {spacing centre : ℚ} {boxes : List (Box ℚ)} (h : Column spacing centre boxes)
    (dx dy : ℚ) : Column spacing (centre + dx) (boxes.map fun b => b.shift dx dy) where
  spaced := by
    rw [List.isChain_map]
    apply h.spaced.imp
    intro a b hab
    simp only [Box.shift, Length.add_rat, hab]
    ring
  centred := by
    intro b hb
    rcases List.mem_map.1 hb with ⟨a, ha, rfl⟩
    rw [← h.centred a ha]
    simp only [Box.shift, Length.add_rat]
    ring
  apart := by
    rw [List.pairwise_map]
    apply h.apart.imp
    intro a b hab
    simp only [Box.shift, Length.add_rat]
    linarith

namespace Layout

variable (s : LayoutSettings ℚ)

/-- Where the next node starts behind some that are stacked from a height on. -/
def below (y : ℚ) (members : List (String × Size ℚ)) : ℚ :=
  members.foldl (fun y m => y + (m.2.height + s.spacing)) y

theorem stack_cons (width y : ℚ) (m : String × Size ℚ) (rest : List (String × Size ℚ)) :
    stack s width y (m :: rest) = (m.1, ⟨(width - m.2.width) / 2, y, m.2⟩) ::
      stack s width (y + (m.2.height + s.spacing)) rest := rfl

variable {members : List (String × Size ℚ)}

/-!
# Extents
-/

theorem le_foldl_width (members : List (String × Size ℚ)) : ∀ w,
    w ≤ members.foldl (fun w m => max w m.2.width) w ∧
      ∀ m ∈ members, m.2.width ≤ members.foldl (fun w m => max w m.2.width) w := by
  induction members with
  | nil => exact fun w => ⟨le_refl w, fun m hm => absurd hm List.not_mem_nil⟩
  | cons m rest ih =>
      intro w
      rcases ih (max w m.2.width) with ⟨hstart, hrest⟩
      constructor
      · exact (le_max_left _ _).trans hstart
      · intro m' hm'
        rcases List.mem_cons.1 hm' with rfl | hm'
        · exact (le_max_right _ _).trans hstart
        · exact hrest m' hm'

theorem width_le_extentOf {m : String × Size ℚ} (hm : m ∈ members) :
    m.2.width ≤ (extentOf s members).width :=
  (le_foldl_width members 0).2 m hm

theorem height_extentOf (hne : members ≠ []) :
    (extentOf s members).height = below s 0 members - s.spacing := by
  cases members with
  | nil => exact absurd rfl hne
  | cons m rest => rfl

theorem measured_le_sizeOf (measured : String -> Size ℚ) (o : Outline) :
    (measured o.id).width ≤ (sizeOf s measured o).width ∧
      (measured o.id).height ≤ (sizeOf s measured o).height := by
  cases o with
  | node id => exact ⟨le_refl _, le_refl _⟩
  | container id body => exact ⟨le_max_left _ _, le_max_left _ _⟩

theorem height_nonneg_of_mem_sizesOf {measured : String -> Size ℚ}
    (h : ∀ id, 0 ≤ (measured id).height) (os : List Outline) :
    ∀ m ∈ sizesOf s measured os, 0 ≤ m.2.height := by
  induction os with
  | nil =>
      intro m hm
      cases hm
  | cons o rest ih =>
      intro m hm
      rcases List.mem_cons.1 hm with rfl | hm
      · exact (h o.id).trans (measured_le_sizeOf s measured o).2
      · exact ih m hm

section Heights

variable (hspacing : 0 ≤ s.spacing) (hheights : ∀ m ∈ members, 0 ≤ m.2.height)
include hspacing hheights

/-!
# Stacking
-/

theorem le_below : ∀ y, y ≤ below s y members := by
  induction members with
  | nil => exact fun y => le_refl y
  | cons m rest ih =>
      intro y
      rcases List.forall_mem_cons.1 hheights with ⟨hm, hheights⟩
      have hrest := ih hheights (y + (m.2.height + s.spacing))
      change y ≤ below s (y + (m.2.height + s.spacing)) rest
      linarith

theorem bounds_stack (width : ℚ) : ∀ y, ∀ b ∈ (stack s width y members).map Prod.snd,
    y ≤ b.y ∧ b.y + b.size.height + s.spacing ≤ below s y members := by
  induction members with
  | nil =>
      intro y b hb
      cases hb
  | cons m rest ih =>
      intro y b hb
      rcases List.forall_mem_cons.1 hheights with ⟨hm, hheights⟩
      have hrest := le_below s hspacing hheights (y + (m.2.height + s.spacing))
      change y ≤ b.y ∧ _ ≤ below s (y + (m.2.height + s.spacing)) rest
      rw [stack_cons] at hb
      rcases List.mem_cons.1 hb with rfl | hb
      · exact ⟨le_refl y, by linarith⟩
      · rcases ih hheights _ b hb with ⟨htop, hbottom⟩
        exact ⟨by linarith, hbottom⟩

theorem column_stack (width : ℚ) : ∀ y,
    Column s.spacing (width / 2) ((stack s width y members).map Prod.snd) := by
  induction members with
  | nil => exact fun y => ⟨.nil, fun b hb => absurd hb List.not_mem_nil, .nil⟩
  | cons m rest ih =>
      intro y
      rcases List.forall_mem_cons.1 hheights with ⟨-, hheights⟩
      have hrest := ih hheights (y + (m.2.height + s.spacing))
      have hbounds := bounds_stack s hspacing hheights width (y + (m.2.height + s.spacing))
      rw [stack_cons, List.map_cons]
      constructor
      case spaced =>
        cases rest with
        | nil => exact .singleton _
        | cons m' rest =>
            apply List.IsChain.cons_cons _ hrest.spaced
            exact (add_assoc y m.2.height s.spacing).symm
      case centred =>
        intro b hb
        rcases List.mem_cons.1 hb with rfl | hb
        · ring
        · exact hrest.centred b hb
      case apart =>
        apply List.pairwise_cons.2
        constructor
        · intro b hb
          exact (add_assoc y m.2.height s.spacing).trans_le (hbounds b hb).1
        · exact hrest.apart

theorem within_stackAll {b : Box ℚ} (hb : b ∈ (stackAll s members).map Prod.snd) :
    b.Within 0 (extentOf s members).width 0 (extentOf s members).height := by
  have hne : members ≠ [] := by
    intro hnil
    rw [hnil] at hb
    cases hb
  rcases bounds_stack s hspacing hheights (extentOf s members).width 0 b hb with ⟨htop, hbottom⟩
  have hcentre := (column_stack s hspacing hheights (extentOf s members).width 0).centred b hb
  have hwidth : b.size.width ≤ (extentOf s members).width := by
    rcases List.mem_map.1 hb with ⟨e, he, rfl⟩
    have hmember := List.mem_map_of_mem (f := fun e => (e.1, e.2.size)) he
    rw [map_size_stackAll] at hmember
    exact width_le_extentOf s hmember
  have hheight := height_extentOf s hne
  exact ⟨by linarith, by linarith, htop, by linarith⟩

/-!
# Containers
-/

theorem column_stackInside (size : Size ℚ) :
    Column s.spacing (size.width / 2) ((stackInside s size members).map Prod.snd) := by
  have hcolumn := (column_stack s hspacing hheights (extentOf s members).width 0).shift
    ((size.width - (extentOf s members).width) / 2) s.marginTop
  have hcentre : (extentOf s members).width / 2 + (size.width - (extentOf s members).width) / 2 =
      size.width / 2 := by ring
  rw [hcentre, List.map_map] at hcolumn
  rw [stackInside, List.map_map]
  exact hcolumn

theorem within_stackInside (measured : Size ℚ) {b : Box ℚ} (hb : b ∈
      (stackInside s (enclose s measured (extentOf s members)) members).map Prod.snd) :
    b.Within s.marginX ((enclose s measured (extentOf s members)).width - s.marginX) s.marginTop
      ((enclose s measured (extentOf s members)).height - s.marginBottom) := by
  have hwidth : (extentOf s members).width + (s.marginX + s.marginX) ≤
      (enclose s measured (extentOf s members)).width := le_max_right _ _
  have hheight : (extentOf s members).height + s.marginTop + s.marginBottom ≤
      (enclose s measured (extentOf s members)).height := le_max_right _ _
  rw [stackInside, List.map_map] at hb
  rcases List.mem_map.1 hb with ⟨e, he, rfl⟩
  have hinside := within_stackAll s hspacing hheights (List.mem_map_of_mem (f := Prod.snd) he)
  rcases hinside with ⟨hleft, hright, htop, hbottom⟩
  constructor
  all_goals
    simp only [Function.comp_apply, Box.shift, Length.add_rat, Length.sub_rat, Length.half_rat]
    linarith

end Heights
end Layout
end Workflow
