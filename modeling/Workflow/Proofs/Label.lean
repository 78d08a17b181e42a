import Mathlib.Data.List.Nodup
import Mathlib.Data.List.Perm.Subperm
import Workflow.Draft
import Workflow.Label

/-!
# Fresh labels

Different numbers make different labels, so among one label more than there are taken ones
some label is free.  A fresh label is therefore never taken, and those of a batch differ from
one another too.
-/

namespace Workflow
namespace Label

theorem numbered_injective (stem : String) : Function.Injective (numbered stem) :=
  fun _ _ h => Naming.sign_append_injective (stem ++ "_") h

theorem exists_free (stem : String) (taken : List String) :
    ∃ n ∈ (List.range (taken.length + 1)).map fun i => i + 1, numbered stem n ∉ taken := by
  by_contra hall
  push Not at hall
  have hnodup : (((List.range (taken.length + 1)).map fun i => i + 1).map (numbered stem)).Nodup :=
    (List.nodup_range.map fun _ _ h => Nat.succ.inj h).map (numbered_injective stem)
  have hsubset : (((List.range (taken.length + 1)).map fun i => i + 1).map (numbered stem)) ⊆
      taken := by
    intro l hl
    obtain ⟨n, hn, rfl⟩ := List.mem_map.1 hl
    exact hall n hn
  have hle := (hnodup.subperm hsubset).length_le
  simp only [List.length_map, List.length_range] at hle
  omega

theorem generate_not_mem (stem : String) (taken : List String) : generate stem taken ∉ taken := by
  obtain ⟨n, hn, hfree⟩ := exists_free stem taken
  unfold generate
  dsimp only
  cases hfound : ((List.range (taken.length + 1)).map fun i => i + 1).find?
      fun n => !taken.contains (numbered stem n) with
  | none =>
      have htaken := List.find?_eq_none.1 hfound n hn
      exact absurd (by simpa using htaken) hfree
  | some m => simpa using List.find?_some hfound

theorem generate_perm (stem : String) {taken taken' : List String} (h : taken.Perm taken') :
    generate stem taken = generate stem taken' := by
  have hcontains : ∀ l, taken.contains l = taken'.contains l := fun l => h.contains_eq
  simp only [generate, h.length_eq, hcontains]

namespace Batch

theorem allocateMany_perm (stem : String) (n : Nat) : ∀ {taken taken' : List String},
    taken.Perm taken' -> (allocateMany n ⟨stem, taken⟩).1 = (allocateMany n ⟨stem, taken'⟩).1 := by
  induction n with
  | zero => exact fun _ => rfl
  | succ n ih =>
      intro taken taken' h
      have hlabel := generate_perm stem h
      have hrest := ih (h.cons (generate stem taken))
      rw [hlabel] at hrest
      show generate stem taken :: (allocateMany n ⟨stem, generate stem taken :: taken⟩).1 = _
      rw [hlabel, hrest]
      rfl

theorem allocateMany_fresh (n : Nat) : ∀ b : Batch, (allocateMany n b).1.length = n ∧
    (allocateMany n b).1.Nodup ∧ ∀ l ∈ (allocateMany n b).1, l ∉ b.taken := by
  induction n with
  | zero => exact fun b => ⟨rfl, List.nodup_nil, fun l hl => by cases hl⟩
  | succ n ih =>
      intro b
      obtain ⟨hlength, hnodup, hfresh⟩ := ih b.allocate.2
      refine ⟨congrArg (· + 1) hlength, List.nodup_cons.2 ⟨fun hmem => ?_, hnodup⟩, ?_⟩
      · exact hfresh _ hmem List.mem_cons_self
      · intro l hl
        rcases List.mem_cons.1 hl with rfl | hl
        · exact generate_not_mem b.stem b.taken
        · exact fun htaken => hfresh l hl (List.mem_cons_of_mem _ htaken)

end Batch
end Label
end Workflow
