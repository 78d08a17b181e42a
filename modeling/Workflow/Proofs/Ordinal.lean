import Mathlib.Data.Finset.Card
import Mathlib.Order.Interval.Finset.Nat
import Workflow.Proofs.Label

/-!
# The numbers of fresh labels

The search for a fresh label tries one number after another.  It stops at the smallest one that is
free, since not more numbers can be passed than there are taken labels.  A batch takes every label
that it gives out, so it gives out the smallest free numbers one after another.
-/

namespace Workflow
namespace Label

variable {stem : String} {taken : List String} {n : Nat}

/-- A number, counted from one, whose label is not taken. -/
def IsFree (stem : String) (taken : List String) (n : Nat) : Prop :=
  1 <= n ∧ numbered stem n ∉ taken

/-- The search from a number on, without a bound, and the number that it stops at. -/
inductive Search (stem : String) (taken : List String) : Nat -> Nat -> Prop where
  | found {n : Nat} : numbered stem n ∉ taken -> Search stem taken n n
  | next {n m : Nat} : numbered stem n ∈ taken -> Search stem taken (n + 1) m ->
      Search stem taken n m

/-- These numbers are free, in order, and every other free number is larger. -/
structure Smallest (stem : String) (taken : List String) (ns : List Nat) : Prop where
  sorted : ns.Pairwise (· < ·)
  free : ∀ n ∈ ns, IsFree stem taken n
  least : ∀ n, IsFree stem taken n -> n ∉ ns -> ∀ m ∈ ns, m < n

/-!
# One label
-/

/-- When all numbers before are taken, the search comes to the free one. -/
theorem search_of_taken (hfree : numbered stem n ∉ taken) (k : Nat) :
    k <= n -> (∀ m, n - k <= m -> m < n -> numbered stem m ∈ taken) ->
      Search stem taken (n - k) n := by
  induction k with
  | zero => exact fun _ _ => .found hfree
  | succ k ih =>
      intro hk htaken
      have hnext : n - (k + 1) + 1 = n - k := by omega
      refine .next (htaken _ (Nat.le_refl _) (by omega)) ?_
      rw [hnext]
      exact ih (by omega) fun m hm => htaken m (by omega)

theorem le_card_of_taken (h : ∀ m, 1 <= m -> m < n -> numbered stem m ∈ taken) :
    n <= taken.toFinset.card + 1 := by
  have hsubset : (Finset.Ico 1 n).image (numbered stem) ⊆ taken.toFinset := by
    intro label hlabel
    rcases Finset.mem_image.1 hlabel with ⟨m, hm, rfl⟩
    rcases Finset.mem_Ico.1 hm with ⟨hone, hlt⟩
    exact List.mem_toFinset.2 (h m hone hlt)
  have hcard := Finset.card_le_card hsubset
  rw [Finset.card_image_of_injective _ (numbered_injective stem), Nat.card_Ico] at hcard
  omega

theorem exists_generate_eq (stem : String) (taken : List String) :
    ∃ n, generate stem taken = numbered stem n ∧ IsFree stem taken n ∧
      ∀ m, 1 <= m -> m < n -> numbered stem m ∈ taken := by
  rcases exists_free stem taken with ⟨k, hk, hfree⟩
  unfold generate
  dsimp only
  rw [List.find?_map]
  cases hfound : (List.range (taken.length + 1)).find?
      ((fun n => !taken.contains (numbered stem n)) ∘ fun i => i + 1) with
  | none =>
      rcases List.mem_map.1 hk with ⟨i, hi, rfl⟩
      have htaken := List.find?_eq_none.1 hfound i hi
      exact absurd (by simpa using htaken) hfree
  | some i =>
      rcases List.find?_range_eq_some.1 hfound with ⟨hi, -, hbefore⟩
      refine ⟨i + 1, rfl, ⟨Nat.succ_pos i, by simpa using hi⟩, fun m hone hm => ?_⟩
      have htaken := hbefore (m - 1) (by omega)
      rw [Function.comp_apply, Nat.sub_add_cancel hone] at htaken
      simpa using htaken

/-!
# Batches
-/

theorem isFree_cons_iff {m : Nat} : IsFree stem (numbered stem n :: taken) m <->
    IsFree stem taken m ∧ m ≠ n := by
  unfold IsFree
  rw [List.mem_cons, (numbered_injective stem).eq_iff, not_or]
  tauto

theorem Smallest.cons {ns : List Nat} (hn : IsFree stem taken n)
    (hbefore : ∀ m, 1 <= m -> m < n -> numbered stem m ∈ taken)
    (h : Smallest stem (numbered stem n :: taken) ns) : Smallest stem taken (n :: ns) := by
  have hlt : ∀ m, IsFree stem taken m -> m ≠ n -> n < m := by
    intro m hm hne
    by_contra hle
    exact hm.2 (hbefore m hm.1 (by omega))
  constructor
  case sorted =>
    refine List.pairwise_cons.2 ⟨fun m hm => ?_, h.sorted⟩
    rcases isFree_cons_iff.1 (h.free m hm) with ⟨hfree, hne⟩
    exact hlt m hfree hne
  case free =>
    exact List.forall_mem_cons.2 ⟨hn, fun m hm => (isFree_cons_iff.1 (h.free m hm)).1⟩
  case least =>
    intro m hm hnew
    rw [List.mem_cons, not_or] at hnew
    rcases hnew with ⟨hne, hnew⟩
    exact List.forall_mem_cons.2 ⟨hlt m hm hne, h.least m (isFree_cons_iff.2 ⟨hm, hne⟩) hnew⟩

/-- No more numbers are passed than there are labels taken before or in the batch. -/
theorem Smallest.le_card {ns : List Nat} (h : Smallest stem taken ns) :
    ∀ n ∈ ns, n <= taken.toFinset.card + ns.length := by
  intro n hn
  have hpassed : ∀ m, 1 <= m -> m < n ->
      numbered stem m ∈ taken ++ (ns.erase n).map (numbered stem) := by
    intro m hone hlt
    by_cases htaken : numbered stem m ∈ taken
    · exact List.mem_append_left _ htaken
    · have hmem : m ∈ ns := by
        by_contra hnew
        exact Nat.lt_asymm hlt (h.least m ⟨hone, htaken⟩ hnew n hn)
      have herase := (List.mem_erase_of_ne (Nat.ne_of_lt hlt)).2 hmem
      exact List.mem_append_right _ (List.mem_map_of_mem herase)
  have hle := le_card_of_taken hpassed
  have hunion := Finset.card_union_le taken.toFinset ((ns.erase n).map (numbered stem)).toFinset
  have hgiven := ((ns.erase n).map (numbered stem)).toFinset_card_le
  have hpos := List.length_pos_of_mem hn
  rw [List.length_map, List.length_erase_of_mem hn] at hgiven
  rw [List.toFinset_append] at hle
  omega

namespace Batch

theorem allocateMany_succ (k : Nat) (b : Batch) : allocateMany (k + 1) b =
    (b.allocate.1 :: (allocateMany k b.allocate.2).1, (allocateMany k b.allocate.2).2) := rfl

theorem exists_smallest_allocateMany (stem : String) (k : Nat) : ∀ taken : List String,
    ∃ ns : List Nat, ns.length = k ∧
      (allocateMany k ⟨stem, taken⟩).1 = ns.map (numbered stem) ∧ Smallest stem taken ns := by
  induction k with
  | zero =>
      intro taken
      exact ⟨[], rfl, rfl, List.Pairwise.nil, fun n hn => absurd hn List.not_mem_nil,
        fun _ _ _ m hm => absurd hm List.not_mem_nil⟩
  | succ k ih =>
      intro taken
      rcases exists_generate_eq stem taken with ⟨n, hlabel, hfree, hbefore⟩
      rcases ih (numbered stem n :: taken) with ⟨ns, hlength, hlabels, hns⟩
      have hallocate : allocate ⟨stem, taken⟩ =
          (numbered stem n, ⟨stem, numbered stem n :: taken⟩) := by
        rw [allocate, hlabel]
      refine ⟨n :: ns, congrArg (· + 1) hlength, ?_, hns.cons hfree hbefore⟩
      rw [allocateMany_succ, hallocate, List.map_cons, ← hlabels]

theorem mem_taken_allocateMany (k : Nat) : ∀ (b : Batch) (label : String),
    label ∈ (allocateMany k b).2.taken <->
      label ∈ b.taken ∨ label ∈ (allocateMany k b).1 := by
  induction k with
  | zero => exact fun b label => (or_iff_left List.not_mem_nil).symm
  | succ k ih =>
      intro b label
      rw [allocateMany_succ, ih, List.mem_cons]
      show label ∈ b.allocate.1 :: b.taken ∨ _ <-> _
      rw [List.mem_cons]
      tauto

end Batch

/-- A fresh label has the smallest number that is free, which the search comes to after at most all
taken labels.  A batch gives out the labels of the smallest free numbers in order, and takes these
and no others. -/
theorem generate_and_allocateMany (stem : String) (taken : List String) :
    (∃ n, Search stem taken 1 n ∧ generate stem taken = numbered stem n ∧
      IsFree stem taken n ∧ (∀ m, IsFree stem taken m -> n <= m) ∧
      n <= taken.toFinset.card + 1) ∧
    ∀ k, ∃ ns : List Nat, ns.length = k ∧
      (Batch.allocateMany k ⟨stem, taken⟩).1 = ns.map (numbered stem) ∧
      Smallest stem taken ns ∧ (∀ n ∈ ns, n <= taken.toFinset.card + k) ∧
      ∀ label, (Batch.allocateMany k ⟨stem, taken⟩).2.isTaken label <->
        label ∈ taken ∨ label ∈ ns.map (numbered stem) := by
  constructor
  · rcases exists_generate_eq stem taken with ⟨n, hlabel, hfree, hbefore⟩
    have hsearch : Search stem taken (n - (n - 1)) n := by
      refine search_of_taken hfree.2 (n - 1) (by omega) fun m hm hlt => ?_
      exact hbefore m (by omega) hlt
    rw [Nat.sub_sub_self hfree.1] at hsearch
    refine ⟨n, hsearch, hlabel, hfree, fun m hm => ?_, le_card_of_taken hbefore⟩
    by_contra hlt
    exact hm.2 (hbefore m hm.1 (by omega))
  · intro k
    rcases Batch.exists_smallest_allocateMany stem k taken with ⟨ns, hlength, hlabels, hns⟩
    refine ⟨ns, hlength, hlabels, hns, hlength ▸ hns.le_card, fun label => ?_⟩
    rw [Batch.isTaken, List.contains_iff_mem, Batch.mem_taken_allocateMany, hlabels]

theorem generate_and_allocateMany_gap :
    (Batch.allocateMany 3 ⟨"block", ["block_2"]⟩).1 = ["block_1", "block_3", "block_4"] ∧
      Smallest "block" ["block_2"] [1, 3, 4] := by
  have hgiven : (Batch.allocateMany 3 ⟨"block", ["block_2"]⟩).1 =
      ["block_1", "block_3", "block_4"] := by
    decide +kernel
  have hnumbered : [1, 3, 4].map (numbered "block") = ["block_1", "block_3", "block_4"] := by
    decide +kernel
  rcases (generate_and_allocateMany "block" ["block_2"]).2 3 with ⟨ns, -, hlabels, hns, -⟩
  have hsame : ns = [1, 3, 4] :=
    List.map_injective_iff.2 (numbered_injective "block")
      (hlabels.symm.trans (hgiven.trans hnumbered.symm))
  exact ⟨hgiven, hsame ▸ hns⟩

end Label
end Workflow
