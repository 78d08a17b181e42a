/-!
# Tables

A table maps texts to values and lists its entries in the order of their keys.
The order is part of the type, so two tables with the same entries are equal.
-/

namespace Workflow

/-!
# Sorted lists of entries
-/

theorem lt_of_not_lt_of_ne {a b : String} (h : ¬ a < b) (hne : a ≠ b) : b < a := by
  apply Classical.byContradiction
  intro hba
  exact hne (String.le_antisymm (String.not_lt.1 hba) (String.not_lt.1 h))

def insertEntry (key : String) (value : α) : List (String × α) -> List (String × α)
  | [] => [(key, value)]
  | (k, v) :: rest =>
      if key < k then (key, value) :: (k, v) :: rest
      else if key = k then (key, value) :: rest
      else (k, v) :: insertEntry key value rest

abbrev SortedByKey (entries : List (String × α)) : Prop :=
  entries.Pairwise fun a b => a.1 < b.1

theorem mem_insertEntry {key : String} {value : α} {entries : List (String × α)}
    {e : String × α} (h : e ∈ insertEntry key value entries) :
    e = (key, value) ∨ e ∈ entries := by
  induction entries with
  | nil =>
      simpa [insertEntry] using h
  | cons head rest ih =>
      obtain ⟨k, v⟩ := head
      simp only [insertEntry] at h
      split at h
      · simpa using h
      · split at h
        · rcases List.mem_cons.1 h with h | h
          · exact Or.inl h
          · exact Or.inr (List.mem_cons_of_mem _ h)
        · rcases List.mem_cons.1 h with h | h
          · exact Or.inr (h ▸ List.mem_cons_self)
          · rcases ih h with h | h
            · exact Or.inl h
            · exact Or.inr (List.mem_cons_of_mem _ h)

theorem sorted_insertEntry {entries : List (String × α)} (h : SortedByKey entries)
    (key : String) (value : α) : SortedByKey (insertEntry key value entries) := by
  induction entries with
  | nil =>
      simp [insertEntry, SortedByKey]
  | cons head rest ih =>
      obtain ⟨k, v⟩ := head
      have hrest := List.pairwise_cons.1 h
      simp only [insertEntry]
      split
      · next hlt =>
          refine List.pairwise_cons.2 ⟨fun e he => ?_, h⟩
          rcases List.mem_cons.1 he with he | he
          · exact he ▸ hlt
          · exact String.lt_trans hlt (hrest.1 e he)
      · split
        · next heq =>
            exact List.pairwise_cons.2 ⟨fun e he => heq ▸ hrest.1 e he, hrest.2⟩
        · next hlt hne =>
            refine List.pairwise_cons.2 ⟨fun e he => ?_, ih hrest.2⟩
            rcases mem_insertEntry he with he | he
            · exact he ▸ lt_of_not_lt_of_ne hlt hne
            · exact hrest.1 e he

/-- The entries in the order of their keys, the last one given for a key kept. -/
def sortEntries (entries : List (String × α)) : List (String × α) :=
  entries.foldl (fun sorted e => insertEntry e.1 e.2 sorted) []

theorem sorted_foldl_insertEntry (entries sorted : List (String × α))
    (h : SortedByKey sorted) :
    SortedByKey (entries.foldl (fun sorted e => insertEntry e.1 e.2 sorted) sorted) := by
  induction entries generalizing sorted with
  | nil => exact h
  | cons e rest ih => exact ih _ (sorted_insertEntry h e.1 e.2)

theorem sorted_sortEntries (entries : List (String × α)) :
    SortedByKey (sortEntries entries) :=
  sorted_foldl_insertEntry entries [] List.Pairwise.nil

/-!
# Looking entries up
-/

theorem lookup_cons_pair (j k : String) (v : α) (rest : List (String × α)) :
    ((j, v) :: rest).lookup k = if k = j then some v else rest.lookup k := by
  by_cases h : k = j
  · simp [h]
  · have hb : (k == j) = false := by simpa using h
    simp [List.lookup_cons, h, hb]

theorem lookup_insertEntry (key k : String) (value : α) (entries : List (String × α)) :
    (insertEntry key value entries).lookup k =
      if k = key then some value else entries.lookup k := by
  induction entries with
  | nil => exact lookup_cons_pair key k value []
  | cons head rest ih =>
      obtain ⟨j, v⟩ := head
      simp only [insertEntry]
      split
      · simp only [lookup_cons_pair]
      · split
        · next hj =>
            subst hj
            simp only [lookup_cons_pair]
            split <;> rfl
        · next hj =>
            simp only [lookup_cons_pair, ih]
            by_cases hk : k = j
            · have h : k ≠ key := fun h => hj (h.symm.trans hk)
              simp only [hk, hk ▸ h, if_true, if_false]
            · simp only [hk, if_false]

theorem lookup_filter_key (keep : String -> Bool) (k : String) (entries : List (String × α)) :
    (entries.filter fun e => keep e.1).lookup k =
      if keep k then entries.lookup k else none := by
  induction entries with
  | nil => simp
  | cons head rest ih =>
      obtain ⟨j, v⟩ := head
      by_cases hk : k = j
      · subst hk
        cases h : keep k
        · simpa [h] using ih
        · simp [h]
      · cases h : keep j <;> simp [h, hk, ih, lookup_cons_pair]

/-!
# The type
-/

structure Table (α : Type) where
  entries : List (String × α)
  sorted : SortedByKey entries := by exact List.Pairwise.nil

namespace Table

variable {α : Type}

instance : Inhabited (Table α) := ⟨⟨[], List.Pairwise.nil⟩⟩

instance [DecidableEq α] : DecidableEq (Table α) := fun a b =>
  decidable_of_iff (a.entries = b.entries) (by cases a; cases b; simp)

instance [BEq α] : BEq (Table α) := ⟨fun a b => a.entries == b.entries⟩

instance [Repr α] : Repr (Table α) := ⟨fun t n => reprPrec t.entries n⟩

def empty : Table α := ⟨[], List.Pairwise.nil⟩

def get? (t : Table α) (key : String) : Option α :=
  t.entries.lookup key

def contains (t : Table α) (key : String) : Bool :=
  t.entries.any fun e => e.1 == key

def keys (t : Table α) : List String :=
  t.entries.map Prod.fst

def values (t : Table α) : List α :=
  t.entries.map Prod.snd

def insert (t : Table α) (key : String) (value : α) : Table α :=
  ⟨insertEntry key value t.entries, sorted_insertEntry t.sorted key value⟩

def ofList (entries : List (String × α)) : Table α :=
  ⟨sortEntries entries, sorted_sortEntries entries⟩

def filter (t : Table α) (keep : String -> Bool) : Table α :=
  ⟨t.entries.filter fun e => keep e.1, List.Pairwise.filter _ t.sorted⟩

def erase (t : Table α) (key : String) : Table α :=
  t.filter fun k => k != key

/-!
# What each operation does to a look-up
-/

@[simp] theorem get?_empty (k : String) : (empty : Table α).get? k = none := rfl

@[simp] theorem get?_insert (t : Table α) (key : String) (value : α) (k : String) :
    (t.insert key value).get? k = if k = key then some value else t.get? k :=
  lookup_insertEntry key k value t.entries

@[simp] theorem get?_filter (t : Table α) (keep : String -> Bool) (k : String) :
    (t.filter keep).get? k = if keep k then t.get? k else none :=
  lookup_filter_key keep k t.entries

theorem get?_erase (t : Table α) (key k : String) :
    (t.erase key).get? k = if k = key then none else t.get? k := by
  by_cases h : k = key <;> simp [erase, h]

end Table
end Workflow
