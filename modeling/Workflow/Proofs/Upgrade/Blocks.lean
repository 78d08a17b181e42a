import Mathlib.Data.List.Forall2
import Workflow.Json.Value

/-!
# Blocks of a document

The blocks of a document are the items of its list of blocks, and with each block the blocks in its
bodies: the items of `children`, of `loop_blocks`, and of `children` of each of its branches.
-/

namespace Workflow

open Json

namespace Upgrade

/-!
# Inside a block
-/

/-- The items of a list; anything else has none. -/
def items : Option Json -> List Json
  | some (arr vs) => vs
  | _ => []

theorem items_none : items none = [] :=
  rfl

def children (v : Json) : List Json :=
  items (v.get? "children")

/-- The blocks in the bodies of a block. -/
def innerBlocks (v : Json) : List Json :=
  children v ++ items (v.get? "loop_blocks") ++ (items (v.get? "branches")).flatMap children

section Size

variable {b v u : Json} {key : String}

theorem sizeOf_lt_of_get? (h : v.get? key = some u) : sizeOf u < sizeOf v := by
  cases v with
  | obj ms =>
      have hmem : (key, u) ∈ ms := by
        rw [Json.get?, List.lookup_eq_some_iff] at h
        obtain ⟨before, after, rfl, -⟩ := h
        simp
      have hlt := List.sizeOf_lt_of_mem hmem
      simp only [Prod.mk.sizeOf_spec] at hlt
      simp only [Json.obj.sizeOf_spec]
      omega
  | _ => simp [Json.get?] at h

theorem sizeOf_lt_of_mem_items (h : b ∈ items (v.get? key)) : sizeOf b < sizeOf v := by
  cases hv : v.get? key with
  | none => simp [hv, items] at h
  | some u =>
      have hu := sizeOf_lt_of_get? hv
      cases u with
      | arr vs =>
          have hlt := List.sizeOf_lt_of_mem (by simpa [hv, items] using h : b ∈ vs)
          simp only [Json.arr.sizeOf_spec] at hu
          omega
      | _ => simp [hv, items] at h

theorem sizeOf_lt_of_mem_innerBlocks (h : b ∈ innerBlocks v) : sizeOf b < sizeOf v := by
  simp only [innerBlocks, List.mem_append, List.mem_flatMap] at h
  rcases h with (h | h) | ⟨branch, hbranch, h⟩
  · exact sizeOf_lt_of_mem_items h
  · exact sizeOf_lt_of_mem_items h
  · exact Nat.lt_trans (sizeOf_lt_of_mem_items h) (sizeOf_lt_of_mem_items hbranch)

end Size

/-- What holds of a block as soon as it holds of the blocks in its bodies holds of every block. -/
theorem block_induction {P : Json -> Prop}
    (step : ∀ v, (∀ b ∈ innerBlocks v, P b) -> P v) (v : Json) : P v :=
  step v fun b _ => block_induction step b
termination_by sizeOf v
decreasing_by exact sizeOf_lt_of_mem_innerBlocks ‹_›

/-!
# All blocks in order
-/

theorem forall₂_flatMap {R : Json -> Json -> Prop} {as bs : List Json} (h : List.Forall₂ R as bs)
    {f g : Json -> List Json} (hfg : ∀ a ∈ as, ∀ b, R a b -> List.Forall₂ R (f a) (g b)) :
    List.Forall₂ R (as.flatMap f) (bs.flatMap g) := by
  induction h with
  | nil => exact List.Forall₂.nil
  | @cons a b as bs hab _ ih =>
      rw [List.flatMap_cons, List.flatMap_cons]
      exact List.rel_append (hfg a List.mem_cons_self b hab)
        (ih fun a' ha' => hfg a' (List.mem_cons_of_mem a ha'))

/-- Which of the blocks in the bodies of a block are gone over, and in which order. -/
structure Inside where
  blocks : Json -> List Json
  inner : ∀ v, ∀ b ∈ blocks v, b ∈ innerBlocks v

namespace Inside

/-- A block before the blocks inside it. -/
def inOrder (s : Inside) (v : Json) : List Json :=
  v :: (s.blocks v).attach.flatMap fun b => s.inOrder b.1
termination_by sizeOf v
decreasing_by exact sizeOf_lt_of_mem_innerBlocks (s.inner v b.1 b.2)

theorem inOrder_eq (s : Inside) (v : Json) :
    s.inOrder v = v :: (s.blocks v).flatMap s.inOrder := by
  rw [inOrder, ← List.flatMap_map, List.attach_map_subtype_val]

def ofDocument (s : Inside) (v : Json) : List Json :=
  (items (v.get? "blocks")).flatMap s.inOrder

variable {s t : Inside} {R : Json -> Json -> Prop}

theorem forall₂_inOrder (h : ∀ v w, R v w -> List.Forall₂ R (s.blocks v) (t.blocks w))
    (v : Json) : ∀ w, R v w -> List.Forall₂ R (s.inOrder v) (t.inOrder w) := by
  induction v using block_induction with
  | step v ih =>
      intro w hvw
      rw [inOrder_eq, inOrder_eq]
      exact List.Forall₂.cons hvw (forall₂_flatMap (h v w hvw) fun b hb => ih b (s.inner v b hb))

theorem inOrder_congr (v : Json) (h : ∀ b ∈ t.inOrder v, s.blocks b = t.blocks b) :
    s.inOrder v = t.inOrder v := by
  induction v using block_induction with
  | step v ih =>
      rw [inOrder_eq t] at h
      rw [inOrder_eq, inOrder_eq, h v List.mem_cons_self]
      refine congrArg _ (List.flatMap_congr fun b hb => ?_)
      refine ih b (t.inner v b hb) fun c hc => h c (List.mem_cons_of_mem v ?_)
      exact List.mem_flatMap.2 ⟨b, hb, hc⟩

end Inside

/-- Every block in the bodies of a block. -/
def every : Inside where
  blocks := innerBlocks
  inner := fun _ _ h => h

/-- Every block of a document, a block before the blocks inside it. -/
def allBlocks (v : Json) : List Json :=
  every.ofDocument v

end Upgrade
end Workflow
