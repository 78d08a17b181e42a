import Workflow.Json.Record
import Workflow.Proofs.Json.Printed
import Workflow.Proofs.Table
import Mathlib.Data.List.Nodup

/-!
# Members of records

A record is written as the members of its fields, in the order they are declared in and with
optional ones left out.  Reading a record looks its members up by key, so it does not matter in
which order they stand, nor which other members stand beside them.
-/

namespace Workflow

namespace Json

/-!
# Canonical members
-/

theorem keys_canonicalMembers (ms : Members) :
    (canonicalMembers ms).map Prod.fst = ms.map Prod.fst := by
  induction ms with
  | nil => rfl
  | cons m rest ih =>
      obtain ⟨k, v⟩ := m
      rw [canonicalMembers, List.map_cons, ih]
      rfl

theorem lookup_canonicalMembers (ms : Members) (key : String) :
    (canonicalMembers ms).lookup key = (ms.lookup key).map canonical := by
  induction ms with
  | nil => rfl
  | cons m rest ih =>
      obtain ⟨k, v⟩ := m
      rw [canonicalMembers, lookup_cons_pair, lookup_cons_pair, ih]
      split <;> rfl

/-- The members of the canonical form of an object. -/
def sortedMembers (ms : Members) : Members :=
  sortEntries (canonicalMembers ms)

theorem canonical_obj (ms : Members) : (obj ms).canonical = obj (sortedMembers ms) := by
  rw [canonical, sortedMembers]

theorem lookup_sortedMembers {ms : Members} (h : (ms.map Prod.fst).Nodup) (key : String) :
    (sortedMembers ms).lookup key = (ms.lookup key).map canonical := by
  rw [sortedMembers, lookup_sortEntries (keys_canonicalMembers ms ▸ h), lookup_canonicalMembers]

theorem canonicalItems_eq_map (items : List Json) : canonicalItems items = items.map canonical := by
  induction items with
  | nil => rfl
  | cons v rest ih => rw [canonicalItems, List.map_cons, ih]

theorem canonicalMembers_eq_self {ms : Members} (h : ∀ m ∈ ms, m.2.canonical = m.2) :
    canonicalMembers ms = ms := by
  induction ms with
  | nil => rfl
  | cons m rest ih =>
      obtain ⟨k, v⟩ := m
      obtain ⟨hv, hrest⟩ := List.forall_mem_cons.1 h
      rw [canonicalMembers, ih hrest]
      exact congrArg (fun v => (k, v) :: rest) hv

mutual

theorem canonical_canonical : ∀ v : Json, v.canonical.canonical = v.canonical
  | null => rfl
  | bool _ => rfl
  | int _ => rfl
  | real _ => rfl
  | str _ => rfl
  | arr items => congrArg arr (canonicalItems_canonicalItems items)
  | obj ms => by
      have hms : canonicalMembers (sortedMembers ms) = sortedMembers ms :=
        canonicalMembers_eq_self fun _ hm =>
          canonical_of_mem_canonicalMembers (mem_of_mem_sortEntries hm)
      have hsorted : SortedByKey (sortedMembers ms) := sorted_sortEntries _
      rw [canonical_obj, canonical_obj, sortedMembers, hms, sortEntries_eq_self hsorted]

theorem canonicalItems_canonicalItems : ∀ items : List Json,
    canonicalItems (canonicalItems items) = canonicalItems items
  | [] => rfl
  | v :: rest => congrArg₂ List.cons (canonical_canonical v) (canonicalItems_canonicalItems rest)

theorem canonical_of_mem_canonicalMembers : ∀ {ms : Members} {m : String × Json},
    m ∈ canonicalMembers ms -> m.2.canonical = m.2
  | (_, v) :: rest, _, hm => by
      rcases List.mem_cons.1 hm with rfl | hm
      · exact canonical_canonical v
      · exact canonical_of_mem_canonicalMembers hm

end

theorem exactItems_iff {items : List Json} : ExactItems items <-> ∀ v ∈ items, v.Exact := by
  induction items with
  | nil => simp [ExactItems]
  | cons v rest ih => rw [ExactItems, List.forall_mem_cons, ih]

theorem exactMembers_iff {ms : Members} : ExactMembers ms <-> ∀ m ∈ ms, m.2.Exact := by
  induction ms with
  | nil => simp [ExactMembers]
  | cons m rest ih =>
      obtain ⟨k, v⟩ := m
      rw [ExactMembers, List.forall_mem_cons, ih]

/-!
# Kept values
-/

/-- A value that is kept when it is written and read. -/
structure Kept (v : Json) : Prop where
  canonical : v.canonical = v
  exact : v.Exact

theorem kept_str (s : String) : (str s).Kept := ⟨rfl, trivial⟩

theorem kept_bool (b : Bool) : (bool b).Kept := ⟨rfl, trivial⟩

theorem kept_ofName {α : Type} [Named α] (a : α) : (ofName a).Kept := kept_str _

theorem kept_ofWord32 (n : UInt32) : (ofWord32 n).Kept := by
  refine ⟨rfl, ?_⟩
  have hlt := n.toNat_lt
  have hfits : fitsInteger (n.toNat : Int) := by
    simp only [fitsInteger, Bool.and_eq_true, decide_eq_true_eq]
    change -((2 : Int) ^ 63) ≤ _ ∧ _ < (2 : Int) ^ 64
    omega
  exact hfits

theorem kept_arr {items : List Json} (h : ∀ v ∈ items, v.Kept) : (arr items).Kept := by
  constructor
  · rw [Json.canonical, canonicalItems_eq_map]
    exact congrArg arr ((List.map_congr_left fun v hv => (h v hv).canonical).trans items.map_id)
  · exact exactItems_iff.2 fun v hv => (h v hv).exact

theorem kept_ofTexts (xs : List String) : (ofTexts xs).Kept := by
  apply kept_arr
  intro v hv
  obtain ⟨s, -, rfl⟩ := List.mem_map.1 hv
  exact kept_str s

theorem kept_obj {ms : Members} (hsorted : SortedByKey ms) (h : ∀ m ∈ ms, m.2.Kept) :
    (obj ms).Kept := by
  constructor
  · rw [Json.canonical, canonicalMembers_eq_self fun m hm => (h m hm).canonical,
      sortEntries_eq_self hsorted]
  · exact exactMembers_iff.2 fun m hm => (h m hm).exact

/-!
# Arrangements

A document is written with the members of every object in some order.  What is read from it does
not depend on the order, as long as looking a member up finds the same.
-/

/-- A form of values in which objects have the same members, whatever their order. -/
structure Arrangement where
  form : Json -> Json
  members : Members -> Members
  form_obj : ∀ ms, form (obj ms) = obj (members ms)
  form_arr : ∀ items, form (arr items) = arr (items.map form)
  form_kept : ∀ v : Json, v.Kept -> form v = v
  lookup_members : ∀ {ms : Members}, (ms.map Prod.fst).Nodup -> ∀ key,
    (members ms).lookup key = (ms.lookup key).map form

namespace Arrangement

/-- The members as they are written. -/
def written : Arrangement where
  form := id
  members := id
  form_obj _ := rfl
  form_arr items := congrArg arr items.map_id.symm
  form_kept _ _ := rfl
  lookup_members _ _ := Option.map_id'.symm

/-- The members of every object sorted by key. -/
def sorted : Arrangement where
  form := canonical
  members := sortedMembers
  form_obj := canonical_obj
  form_arr items := by rw [canonical, canonicalItems_eq_map]
  form_kept _ hv := hv.canonical
  lookup_members := lookup_sortedMembers

end Arrangement

/-!
# Written records
-/

/-- Members as a record with these fields is written; some of the values may be free. -/
structure IsRecord (fields : List String) (free : List Json) (ms : Members) : Prop where
  keys : (ms.map Prod.fst).Sublist fields
  kept : ∀ m ∈ ms, m.2 ∈ free ∨ m.2.Kept

namespace IsRecord

variable {fields : List String} {free : List Json} {ms : Members} {key : String}

theorem nil : IsRecord [] free [] :=
  ⟨List.Sublist.refl [], by simp⟩

theorem cons {v : Json} (hv : v.Kept) (h : IsRecord fields free ms) :
    IsRecord (key :: fields) free ((key, v) :: ms) :=
  ⟨h.keys.cons_cons key, List.forall_mem_cons.2 ⟨Or.inr hv, h.kept⟩⟩

theorem present_or {α : Type} {write : α -> Json} {o : Option α}
    (ho : ∀ a ∈ o, write a ∈ free ∨ (write a).Kept) (h : IsRecord fields free ms) :
    IsRecord (key :: fields) free (Json.present key write o ++ ms) := by
  cases o with
  | none => exact ⟨h.keys.cons key, h.kept⟩
  | some a => exact ⟨h.keys.cons_cons key, List.forall_mem_cons.2 ⟨ho a rfl, h.kept⟩⟩

theorem present {α : Type} {write : α -> Json} {o : Option α} (ho : ∀ a ∈ o, (write a).Kept)
    (h : IsRecord fields free ms) :
    IsRecord (key :: fields) free (Json.present key write o ++ ms) :=
  present_or (fun a ha => Or.inr (ho a ha)) h

theorem present_last {α : Type} {write : α -> Json} {o : Option α}
    (ho : ∀ a ∈ o, (write a).Kept) : IsRecord [key] free (Json.present key write o) := by
  have h : IsRecord [key] free (Json.present key write o ++ []) := present ho nil
  rwa [List.append_nil] at h

theorem presentFree {o : Option Json} (ho : o.toList = free) (h : IsRecord fields free ms) :
    IsRecord (key :: fields) free (Json.present key id o ++ ms) :=
  present_or (fun _ hv => Or.inl (ho ▸ Option.mem_toList.2 hv)) h

theorem presentFree_last {o : Option Json} (ho : o.toList = free) :
    IsRecord [key] free (Json.present key id o) := by
  have h : IsRecord [key] free (Json.present key id o ++ []) := presentFree ho nil
  rwa [List.append_nil] at h

theorem append {others : List String} {ns : Members} (h : IsRecord fields free ms)
    (hothers : IsRecord others free ns) : IsRecord (fields ++ others) free (ms ++ ns) := by
  refine ⟨?_, List.forall_mem_append.2 ⟨h.kept, hothers.kept⟩⟩
  rw [List.map_append]
  exact h.keys.append hothers.keys

theorem exact (h : IsRecord fields free ms) (hfree : ∀ v ∈ free, v.Exact) :
    ∀ m ∈ ms, m.2.Exact :=
  fun m hm => (h.kept m hm).elim (hfree m.2) Kept.exact

theorem form_eq (h : IsRecord fields free ms) (f : Arrangement)
    (hfree : ∀ v ∈ free, f.form v = v) : ∀ m ∈ ms, f.form m.2 = m.2 :=
  fun m hm => (h.kept m hm).elim (hfree m.2) (f.form_kept m.2)

end IsRecord

/-!
# Looking up fields
-/

theorem lookup_present {α : Type} (key : String) (write : α -> Json) (o : Option α) (k : String) :
    (present key write o).lookup k = if k = key then o.map write else none := by
  cases o with
  | none => simp [present]
  | some a => exact lookup_cons_pair key k (write a) []

theorem lookup_append_left {fields others : List String} {ms ns : Members}
    (hns : (ns.map Prod.fst).Sublist others) (hdistinct : (fields ++ others).Nodup) {k : String}
    (hk : k ∈ fields) : (ms ++ ns).lookup k = ms.lookup k := by
  have hnone : ns.lookup k = none := by
    apply lookup_eq_none
    intro hmem
    exact List.disjoint_of_nodup_append hdistinct hk (hns.subset hmem)
  rw [List.lookup_append, hnone, Option.or_none]

theorem lookup_append_right {fields others : List String} {ms ns : Members}
    (hms : (ms.map Prod.fst).Sublist fields) (hdistinct : (fields ++ others).Nodup) {k : String}
    (hk : k ∈ others) : (ms ++ ns).lookup k = ns.lookup k := by
  have hnone : ms.lookup k = none := by
    apply lookup_eq_none
    intro hmem
    exact List.disjoint_of_nodup_append hdistinct (hms.subset hmem) hk
  rw [List.lookup_append, hnone, Option.none_or]

/-- The fields of a record stand among these members. -/
def Holds (ms : Members) (fields : List String) (record : Members) : Prop :=
  ∀ k ∈ fields, ms.lookup k = record.lookup k

theorem mem_of_lookup {ms : Members} {k : String} {v : Json} (h : ms.lookup k = some v) :
    (k, v) ∈ ms := by
  obtain ⟨before, after, rfl, -⟩ := List.lookup_eq_some_iff.1 h
  exact List.mem_append_right before List.mem_cons_self

theorem map_lookup_eq {f : Json -> Json} {record : Members} (h : ∀ m ∈ record, f m.2 = m.2)
    (k : String) : (record.lookup k).map f = record.lookup k := by
  cases hv : record.lookup k with
  | none => rfl
  | some v => exact congrArg some (h (k, v) (mem_of_lookup hv))

theorem Holds.arranged {ms record : Members} {fields : List String} (h : Holds ms fields record)
    (f : Arrangement) (hms : (ms.map Prod.fst).Nodup) (hrecord : ∀ m ∈ record, f.form m.2 = m.2) :
    Holds (f.members ms) fields record := by
  intro k hk
  rw [f.lookup_members hms, h k hk, map_lookup_eq hrecord]

/-!
# Reading fields
-/

section Fields

variable {α : Type} {ms : Members} {key : String} {read : Json -> Option α}

theorem required_eq {v : Json} (h : ms.lookup key = some v) : required ms key read = read v := by
  rw [required, h, Option.bind_some]

theorem defaulted_eq {value : α} {v : Json} (h : ms.lookup key = some v) :
    defaulted ms key value read = read v := by
  rw [defaulted, h]

theorem optional_eq {write : α -> Json} {o : Option α} (h : ms.lookup key = o.map write)
    (hread : ∀ a ∈ o, read (write a) = some a ∧ write a ≠ null) :
    optional ms key read = some o := by
  rw [optional, h]
  cases o with
  | none => rfl
  | some a =>
      obtain ⟨hread, hnull⟩ := hread a rfl
      rw [Option.map_some]
      split
      · next heq => cases heq
      · next heq => exact absurd (Option.some.inj heq) hnull
      · next v _ heq =>
          cases heq
          rw [hread]
          rfl

end Fields

end Json
end Workflow
