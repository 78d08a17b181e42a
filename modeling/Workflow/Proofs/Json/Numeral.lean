import Workflow.Json.Printer
import Workflow.Json.Token
import Mathlib.Data.List.Basic
import Mathlib.Data.List.TakeWhile

/-!
# Printed numbers

Integers are printed as numerals that stand for them.  Doubles are printed in characters that
belong to one word, so they are cut out of a text whole.
-/

namespace Workflow
namespace Json

/-!
# Digits
-/

theorem isDigit_of_mem_writeNat {n : Nat} {c : Char} (h : c ∈ writeNat n) : c.isDigit :=
  Nat.isDigit_of_mem_toDigits (by decide) (by decide) h

theorem writeNat_ne_nil (n : Nat) : writeNat n ≠ [] :=
  Nat.toDigits_ne_nil

theorem decimalValue_writeNat (n : Nat) : decimalValue (writeNat n) = n := by
  have h : Nat.ofDigitChars 10 (writeNat n) 0 = n := Nat.ofDigitChars_ten_toDigits
  rwa [Nat.ofDigitChars_eq_foldl] at h

theorem writeNat_eq_of_head? {n : Nat} (h : (writeNat n).head? = some '0') : n = 0 := by
  induction n using Nat.strongRecOn with
  | ind n ih =>
      rw [writeNat, Nat.toDigits_eq_if (by decide)] at h
      split at h
      · exact Nat.digitChar_eq_zero.1 (Option.some.inj h)
      · next hlt =>
          rw [List.head?_append_of_ne_nil _ Nat.toDigits_ne_nil] at h
          have hzero := ih (n / 10) (by omega) h
          omega

theorem isPlain_of_isDigit {c : Char} (h : c.isDigit) : isPlain c := by
  simp [isPlain, Char.isAlphanum, h]

theorem isPlain_of_mem_writeNat {n : Nat} {c : Char} (h : c ∈ writeNat n) : isPlain c :=
  isPlain_of_isDigit (isDigit_of_mem_writeNat h)

/-!
# Words
-/

theorem scalar?_of_ofChars? {cs : List Char} {n : Numeral} (h : Numeral.ofChars? cs = some n) :
    scalar? cs = some (.number n) := by
  have hne : ∀ word : String, Numeral.ofChars? word.toList = none -> cs ≠ word.toList := by
    rintro word hword rfl
    rw [hword] at h
    cases h
  rw [scalar?, if_neg (hne "null" (by decide)), if_neg (hne "true" (by decide)),
    if_neg (hne "false" (by decide)), h]
  rfl

theorem scalar?_cases {cs : List Char} {w : Written} (h : scalar? cs = some w) :
    (w = .null ∨ ∃ b, w = .bool b) ∨ ∃ n, w = .number n := by
  rw [scalar?] at h
  split at h
  · exact Or.inl (Or.inl (Option.some.inj h).symm)
  · split at h
    · exact Or.inl (Or.inr ⟨true, (Option.some.inj h).symm⟩)
    · split at h
      · exact Or.inl (Or.inr ⟨false, (Option.some.inj h).symm⟩)
      · obtain ⟨n, -, rfl⟩ := Option.map_eq_some_iff.1 h
        exact Or.inr ⟨n, rfl⟩

/-!
# Integers
-/

theorem tail?_nil : Numeral.tail? [] = some ([], none) := rfl

theorem ofChars?_writeInt (n : Int) : Numeral.ofChars? (writeInt n) =
    some ⟨decide (n < 0), writeNat n.natAbs, [], none⟩ := by
  have hdigits : ∀ c ∈ writeNat n.natAbs, c.isDigit := fun c hc => isDigit_of_mem_writeNat hc
  have htake : (writeNat n.natAbs).takeWhile Char.isDigit = writeNat n.natAbs :=
    List.takeWhile_eq_self_iff.2 hdigits
  have hdrop : (writeNat n.natAbs).dropWhile Char.isDigit = [] :=
    List.dropWhile_eq_nil_iff.2 hdigits
  have hwhole : ((writeNat n.natAbs).isEmpty || ((writeNat n.natAbs).head? = some '0' &&
      (writeNat n.natAbs).length != 1)) = false := by
    rw [Bool.or_eq_false_iff]
    refine ⟨by simpa using writeNat_ne_nil n.natAbs, ?_⟩
    by_cases hzero : (writeNat n.natAbs).head? = some '0'
    · rw [writeNat_eq_of_head? hzero]
      rfl
    · simp [hzero]
  have hsign : (writeNat n.natAbs).head? ≠ some '-' := by
    intro hhead
    have := isDigit_of_mem_writeNat (List.mem_of_head? hhead)
    revert this
    decide
  rw [Numeral.ofChars?, writeInt]
  by_cases hn : n < 0
  · simp [hn, htake, hdrop, hwhole, tail?_nil]
  · simp [hn, hsign, htake, hdrop, hwhole, tail?_nil]

theorem value?_writeInt {n : Int} (h : fitsInteger n) :
    Numeral.value? ⟨decide (n < 0), writeNat n.natAbs, [], none⟩ = some (.int n) := by
  have hint : Numeral.int? ⟨decide (n < 0), writeNat n.natAbs, [], none⟩ = some n := by
    have hvalue : (if decide (n < 0) then -(n.natAbs : Int) else n.natAbs) = n := by
      split <;> rename_i hn <;> rw [decide_eq_true_iff] at hn <;> omega
    have hzero : (decide (n < 0) && (n.natAbs : Int) == 0) = false := by
      by_cases hn : n < 0
      · have hne : (n.natAbs : Int) ≠ 0 := by omega
        rw [beq_false_of_ne hne, Bool.and_false]
      · rw [decide_eq_false hn, Bool.false_and]
    rw [Numeral.int?, decimalValue_writeNat]
    simp only [hvalue, hzero, h, List.isEmpty_nil, Option.isNone_none, Bool.and_true,
      Bool.not_false, if_true]
  rw [Numeral.value?, hint]

/-!
# Doubles
-/

theorem isPlain_of_mem_writeInt {n : Int} {c : Char} (h : c ∈ writeInt n) : isPlain c := by
  rw [writeInt] at h
  split at h
  · rcases List.mem_cons.1 h with rfl | h
    · rfl
    · exact isPlain_of_mem_writeNat h
  · exact isPlain_of_mem_writeNat h

theorem isPlain_of_mem_writeDecimal {d : Number.Double.Decimal} {c : Char}
    (h : c ∈ writeDecimal d) : isPlain c := by
  have hdigit : ∀ c ∈ writeNat d.digits, isPlain c := fun c hc => isPlain_of_mem_writeNat hc
  have hzeros : ∀ k, ∀ c ∈ List.replicate k '0', isPlain c := by
    intro k c hc
    rw [List.eq_of_mem_replicate hc]
    rfl
  have htake : ∀ k, ∀ c ∈ (writeNat d.digits).take k, isPlain c :=
    fun k c hc => hdigit c (List.mem_of_mem_take hc)
  have hdrop : ∀ k, ∀ c ∈ (writeNat d.digits).drop k, isPlain c :=
    fun k c hc => hdigit c (List.mem_of_mem_drop hc)
  have hpoint : isPlain '.' := rfl
  have hzero : isPlain '0' := rfl
  have hmark : isPlain 'e' := rfl
  have hexponent : ∀ k, ∀ c ∈ writeInt k, isPlain c := fun k c hc => isPlain_of_mem_writeInt hc
  revert c
  unfold writeDecimal
  dsimp only
  split
  · simp only [List.forall_mem_append]
    exact ⟨⟨hdigit, hzeros _⟩, by simp [hpoint, hzero]⟩
  · split
    · simp only [List.forall_mem_append, List.forall_mem_cons]
      exact ⟨htake _, hpoint, hdrop _⟩
    · split
      · simp only [List.forall_mem_append]
        exact ⟨⟨by simp [hpoint, hzero], hzeros _⟩, hdigit⟩
      · simp only [List.forall_mem_append, List.forall_mem_cons]
        refine ⟨?_, hmark, hexponent _⟩
        split
        · exact hdigit
        · simp only [List.forall_mem_append, List.forall_mem_cons]
          exact ⟨htake _, hpoint, hdrop _⟩

theorem isPlain_of_mem_writeDouble {x : Number.Double} {c : Char} (h : c ∈ writeDouble x) :
    isPlain c := by
  have hsign : ∀ c ∈ (if x.isNegative then ['-'] else []), isPlain c := by
    intro c hc
    split at hc
    · rw [List.mem_singleton.1 hc]
      rfl
    · cases hc
  revert c
  unfold writeDouble
  dsimp only
  split
  · simp only [List.forall_mem_append]
    exact ⟨hsign, List.all_eq_true.1 rfl⟩
  · simp only [List.forall_mem_append]
    exact ⟨hsign, fun c hc => isPlain_of_mem_writeDecimal hc⟩

end Json
end Workflow
