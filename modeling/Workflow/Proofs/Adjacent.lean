import Mathlib.Data.List.Nodup
import Mathlib.Tactic.Tauto

/-!
# Neighbours in a list

A chain is a list of ids, and its edges are the pairs of neighbours in it.  In a list
without repetition an element has at most one neighbour on each side, which is why
splicing an element in or out changes only the pairs at that place.
-/

namespace Workflow

/-- One element stands right before another. -/
def Adjacent (l : List α) (a b : α) : Prop :=
  ∃ u v, l = u ++ a :: b :: v

/-!
# Neighbours and the shape of the list
-/

@[simp] theorem not_adjacent_nil {a b : α} : ¬ Adjacent [] a b := by
  rintro ⟨u, v, h⟩
  simp at h

@[simp] theorem not_adjacent_singleton {x a b : α} : ¬ Adjacent [x] a b := by
  rintro ⟨u, v, h⟩
  have hlength := congrArg List.length h
  simp at hlength
  omega

@[simp] theorem adjacent_cons_cons {x y a b : α} {l : List α} :
    Adjacent (x :: y :: l) a b ↔ (a = x ∧ b = y) ∨ Adjacent (y :: l) a b := by
  constructor
  · rintro ⟨u, v, h⟩
    cases u with
    | nil =>
        simp only [List.nil_append, List.cons.injEq] at h
        exact Or.inl ⟨h.1.symm, h.2.1.symm⟩
    | cons w u =>
        simp only [List.cons_append, List.cons.injEq] at h
        exact Or.inr ⟨u, v, h.2⟩
  · rintro (⟨rfl, rfl⟩ | ⟨u, v, h⟩)
    · exact ⟨[], l, rfl⟩
    · exact ⟨x :: u, v, by rw [h, List.cons_append]⟩

theorem adjacent_append_cons {u v : List α} {a x y : α} :
    Adjacent (u ++ a :: v) x y ↔ Adjacent (u ++ [a]) x y ∨ Adjacent (a :: v) x y := by
  induction u with
  | nil => simp
  | cons w u ih =>
      cases u with
      | nil => simp
      | cons z u =>
          simp only [List.cons_append, adjacent_cons_cons] at ih ⊢
          rw [ih, or_assoc]

namespace Adjacent

theorem left_mem {l : List α} {a b : α} (h : Adjacent l a b) : a ∈ l := by
  obtain ⟨u, v, rfl⟩ := h
  simp

theorem right_mem {l : List α} {a b : α} (h : Adjacent l a b) : b ∈ l := by
  obtain ⟨u, v, rfl⟩ := h
  simp

theorem left_mem_of_concat {u : List α} {z a b : α} (h : Adjacent (u ++ [z]) a b) :
    a ∈ u := by
  induction u with
  | nil => simp at h
  | cons w u ih =>
      cases u with
      | nil =>
          simp only [List.cons_append, List.nil_append, adjacent_cons_cons,
            not_adjacent_singleton, or_false] at h
          simp [h.1]
      | cons x u =>
          simp only [List.cons_append, adjacent_cons_cons] at h
          rcases h with ⟨rfl, -⟩ | h
          · exact List.mem_cons_self
          · exact List.mem_cons_of_mem _ (ih h)

theorem right_mem_of_cons {l : List α} {z a b : α} (h : Adjacent (z :: l) a b) : b ∈ l := by
  obtain ⟨u, v, h⟩ := h
  cases u with
  | nil =>
      simp only [List.nil_append, List.cons.injEq] at h
      simp [h.2]
  | cons w u =>
      simp only [List.cons_append, List.cons.injEq] at h
      simp [h.2]

theorem ne {l : List α} {a b : α} (hl : l.Nodup) (h : Adjacent l a b) : a ≠ b := by
  obtain ⟨u, v, rfl⟩ := h
  have hright := (List.nodup_append.1 hl).2.1
  intro hab
  exact (List.nodup_cons.1 hright).1 (by simp [hab])

theorem right_unique {l : List α} {a b c : α} (hl : l.Nodup) (hb : Adjacent l a b)
    (hc : Adjacent l a c) : b = c := by
  induction l with
  | nil => simp at hb
  | cons x l ih =>
      cases l with
      | nil => simp at hb
      | cons y l =>
          have hx := (List.nodup_cons.1 hl).1
          rcases adjacent_cons_cons.1 hb with ⟨hax, hby⟩ | hbrest <;>
          rcases adjacent_cons_cons.1 hc with ⟨hax', hcy⟩ | hcrest
          · exact hby.trans hcy.symm
          · exact absurd (hax ▸ hcrest.left_mem) hx
          · exact absurd (hax' ▸ hbrest.left_mem) hx
          · exact ih (List.nodup_cons.1 hl).2 hbrest hcrest

theorem left_unique {l : List α} {a b c : α} (hl : l.Nodup) (ha : Adjacent l a c)
    (hb : Adjacent l b c) : a = b := by
  induction l with
  | nil => simp at ha
  | cons x l ih =>
      cases l with
      | nil => simp at ha
      | cons y l =>
          have hy := (List.nodup_cons.1 (List.nodup_cons.1 hl).2).1
          rcases adjacent_cons_cons.1 ha with ⟨hax, hcy⟩ | harest <;>
          rcases adjacent_cons_cons.1 hb with ⟨hbx, hcy'⟩ | hbrest
          · exact hax.trans hbx.symm
          · exact absurd (hcy ▸ hbrest.right_mem_of_cons) hy
          · exact absurd (hcy' ▸ harest.right_mem_of_cons) hy
          · exact ih (List.nodup_cons.1 hl).2 harest hbrest

theorem exists_rest {u rest : List α} {a b : α} (h : Adjacent (u ++ a :: rest) a b)
    (hl : (u ++ a :: rest).Nodup) : ∃ rest', rest = b :: rest' := by
  cases rest with
  | nil => exact absurd rfl ((List.nodup_append.1 hl).2.2 a h.left_mem_of_concat a (by simp))
  | cons c rest => exact ⟨rest, by rw [h.right_unique hl ⟨u, rest, rfl⟩]⟩

end Adjacent

theorem exists_adjacent_of_mem_init {u : List α} {z a : α} (h : a ∈ u) :
    ∃ b, Adjacent (u ++ [z]) a b := by
  obtain ⟨w, v, rfl⟩ := List.append_of_mem h
  cases v with
  | nil => exact ⟨z, w, [], by simp⟩
  | cons y v => exact ⟨y, w, v ++ [z], by simp⟩

theorem exists_adjacent_of_mem_tail {l : List α} {z b : α} (h : b ∈ l) :
    ∃ a, Adjacent (z :: l) a b := by
  obtain ⟨w, v, rfl⟩ := List.append_of_mem h
  rcases List.eq_nil_or_concat w with rfl | ⟨w, y, rfl⟩
  · exact ⟨z, [], v, rfl⟩
  · exact ⟨y, z :: w, v, by simp⟩

/-!
# Splicing
-/

section Splicing

variable {u v : List α} {a b c x y : α}

theorem not_adjacent_around (h : (u ++ a :: b :: v).Nodup) :
    ¬ Adjacent (u ++ [a]) a b ∧ ¬ Adjacent (b :: v) a b := by
  obtain ⟨-, hright, hdisjoint⟩ := List.nodup_append.1 h
  constructor
  · intro hab
    exact hdisjoint a hab.left_mem_of_concat a (by simp) rfl
  · intro hab
    exact (List.nodup_cons.1 hright).1 hab.left_mem

theorem adjacent_at : Adjacent (u ++ a :: b :: v) x y ↔
    Adjacent (u ++ [a]) x y ∨ (x = a ∧ y = b) ∨ Adjacent (b :: v) x y := by
  rw [adjacent_append_cons, adjacent_cons_cons]

/-- Splicing an element in replaces one pair by two. -/
theorem adjacent_splice_in (h : (u ++ a :: b :: v).Nodup) :
    Adjacent (u ++ a :: c :: b :: v) x y ↔
      (Adjacent (u ++ a :: b :: v) x y ∧ ¬ (x = a ∧ y = b)) ∨
        (x = a ∧ y = c) ∨ (x = c ∧ y = b) := by
  obtain ⟨hleft, hright⟩ := not_adjacent_around h
  rw [adjacent_append_cons, adjacent_cons_cons, adjacent_cons_cons, adjacent_at]
  constructor
  · rintro (hxy | hxy | hxy | hxy)
    · refine Or.inl ⟨Or.inl hxy, ?_⟩
      rintro ⟨rfl, rfl⟩
      exact hleft hxy
    · exact Or.inr (Or.inl hxy)
    · exact Or.inr (Or.inr hxy)
    · refine Or.inl ⟨Or.inr (Or.inr hxy), ?_⟩
      rintro ⟨rfl, rfl⟩
      exact hright hxy
  · rintro (⟨hxy | hxy | hxy, hne⟩ | hxy | hxy)
    · exact Or.inl hxy
    · exact absurd hxy hne
    · exact Or.inr (Or.inr (Or.inr hxy))
    · exact Or.inr (Or.inl hxy)
    · exact Or.inr (Or.inr (Or.inl hxy))

/-- Splicing an element out joins its neighbours. -/
theorem adjacent_splice_out (h : (u ++ a :: c :: b :: v).Nodup) :
    Adjacent (u ++ a :: b :: v) x y ↔
      (Adjacent (u ++ a :: c :: b :: v) x y ∧ x ≠ c ∧ y ≠ c) ∨ (x = a ∧ y = b) := by
  have hsplit : u ++ a :: c :: b :: v = (u ++ [a]) ++ c :: (b :: v) := by simp
  obtain ⟨-, hright, hdisjoint⟩ := List.nodup_append.1 (hsplit ▸ h)
  have hleft : c ∉ u ++ [a] := fun hc => hdisjoint c hc c (by simp) rfl
  have hright := (List.nodup_cons.1 hright).1
  rw [adjacent_append_cons, adjacent_cons_cons, adjacent_append_cons (v := c :: b :: v),
    adjacent_cons_cons, adjacent_cons_cons]
  constructor
  · rintro (hxy | hxy | hxy)
    · exact Or.inl ⟨Or.inl hxy, fun hx => hleft (hx ▸ hxy.left_mem),
        fun hy => hleft (hy ▸ hxy.right_mem)⟩
    · exact Or.inr hxy
    · exact Or.inl ⟨Or.inr (Or.inr (Or.inr hxy)), fun hx => hright (hx ▸ hxy.left_mem),
        fun hy => hright (hy ▸ hxy.right_mem)⟩
  · rintro (⟨hxy | ⟨-, rfl⟩ | ⟨rfl, -⟩ | hxy, hx, hy⟩ | hxy)
    · exact Or.inl hxy
    · exact absurd rfl hy
    · exact absurd rfl hx
    · exact Or.inr (Or.inr hxy)
    · exact Or.inr (Or.inl hxy)

theorem filter_ne_middle [DecidableEq α] (h : (u ++ c :: v).Nodup) :
    (u ++ c :: v).filter (· ≠ c) = u ++ v := by
  obtain ⟨-, hright, hdisjoint⟩ := List.nodup_append.1 h
  have hu : ∀ x ∈ u, x ≠ c := fun x hx => hdisjoint x hx c List.mem_cons_self
  have hv : ∀ x ∈ v, x ≠ c := fun x hx hxc => (List.nodup_cons.1 hright).1 (hxc ▸ hx)
  rw [List.filter_append, List.filter_cons_of_neg (by simp),
    List.filter_eq_self.2 (by simpa using hu), List.filter_eq_self.2 (by simpa using hv)]

theorem ends_splice_in {first last : α} {mid : List α}
    (h : u ++ a :: b :: v = first :: (mid ++ [last])) (c : α) :
    ∃ mid', u ++ a :: c :: b :: v = first :: (mid' ++ [last]) ∧
      ∀ x ∈ mid', x ∈ mid ∨ x = c := by
  obtain ⟨w, z, hw⟩ : ∃ w z, b :: v = w ++ [z] :=
    ⟨_, _, (List.dropLast_append_getLast (List.cons_ne_nil b v)).symm⟩
  cases u with
  | nil =>
      simp only [List.nil_append, List.cons.injEq] at h ⊢
      obtain ⟨rfl, h⟩ := h
      exact ⟨c :: mid, by simp [h], by simp [or_comm]⟩
  | cons f u =>
      simp only [List.cons_append, List.cons.injEq] at h ⊢
      obtain ⟨rfl, h⟩ := h
      rw [hw, ← List.cons_append, ← List.append_assoc] at h
      obtain ⟨rfl, hz⟩ := List.append_inj' h rfl
      refine ⟨u ++ a :: c :: w, by simp [hw, List.cons.inj hz], fun x hx => ?_⟩
      simp only [List.mem_append, List.mem_cons] at hx ⊢
      tauto

theorem ends_splice_out {first last : α} {mid : List α}
    (h : u ++ a :: c :: b :: v = first :: (mid ++ [last])) :
    ∃ mid', u ++ a :: b :: v = first :: (mid' ++ [last]) ∧ ∀ x ∈ mid', x ∈ mid := by
  obtain ⟨w, z, hw⟩ : ∃ w z, b :: v = w ++ [z] :=
    ⟨_, _, (List.dropLast_append_getLast (List.cons_ne_nil b v)).symm⟩
  cases u with
  | nil =>
      simp only [List.nil_append, List.cons.injEq] at h ⊢
      obtain ⟨rfl, h⟩ := h
      rw [hw, ← List.cons_append] at h
      obtain ⟨rfl, hz⟩ := List.append_inj' h rfl
      exact ⟨w, by simp [hw, List.cons.inj hz], fun x hx => List.mem_cons_of_mem c hx⟩
  | cons f u =>
      simp only [List.cons_append, List.cons.injEq] at h ⊢
      obtain ⟨rfl, h⟩ := h
      rw [hw, ← List.cons_append, ← List.cons_append, ← List.append_assoc] at h
      obtain ⟨rfl, hz⟩ := List.append_inj' h rfl
      refine ⟨u ++ a :: w, by simp [hw, List.cons.inj hz], fun x hx => ?_⟩
      simp only [List.mem_append, List.mem_cons] at hx ⊢
      tauto

end Splicing
end Workflow
