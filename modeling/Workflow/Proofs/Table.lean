import Mathlib.Data.List.Nodup
import Workflow.Table

/-!
# Keys of tables

The keys of a table are in order and all different.  Putting entries into a table one after
another, also ones without a value, is a way of sorting their keys.
-/

namespace Workflow

/-!
# Sorted entries
-/

section Entries

variable {α : Type}

theorem lookup_ne_none_iff {entries : List (String × α)} {key : String} :
    entries.lookup key ≠ none <-> key ∈ entries.map Prod.fst := by
  induction entries with
  | nil => simp
  | cons e rest ih =>
      obtain ⟨k, v⟩ := e
      rw [lookup_cons_pair, List.map_cons, List.mem_cons, ← ih]
      by_cases hkey : key = k <;> simp [hkey]

theorem lookup_eq_none {entries : List (String × α)} {key : String}
    (h : key ∉ entries.map Prod.fst) : entries.lookup key = none := by
  by_contra hsome
  exact h (lookup_ne_none_iff.1 hsome)

theorem lookup_eq_some_of_mem {entries : List (String × α)} (h : (entries.map Prod.fst).Nodup)
    {e : String × α} (he : e ∈ entries) : entries.lookup e.1 = some e.2 := by
  induction entries with
  | nil => cases he
  | cons first rest ih =>
      rcases List.nodup_cons.1 h with ⟨hfirst, hrest⟩
      rw [lookup_cons_pair]
      rcases List.mem_cons.1 he with rfl | he
      · exact if_pos rfl
      · have hne : e.1 ≠ first.1 := fun heq => hfirst (heq ▸ List.mem_map_of_mem he)
        rw [if_neg hne, ih hrest he]

theorem lookup_foldl_insertEntry {entries : List (String × α)}
    (h : (entries.map Prod.fst).Nodup) (sorted : List (String × α)) (key : String) :
    (entries.foldl (fun sorted e => insertEntry e.1 e.2 sorted) sorted).lookup key =
      (entries.lookup key).or (sorted.lookup key) := by
  induction entries generalizing sorted with
  | nil => rfl
  | cons e rest ih =>
      obtain ⟨k, v⟩ := e
      obtain ⟨hk, hrest⟩ := List.nodup_cons.1 h
      rw [List.foldl_cons, ih hrest, lookup_insertEntry, lookup_cons_pair]
      by_cases hkey : key = k
      · subst hkey
        simp [lookup_eq_none hk]
      · simp [hkey]

theorem lookup_sortEntries {entries : List (String × α)} (h : (entries.map Prod.fst).Nodup)
    (key : String) : (sortEntries entries).lookup key = entries.lookup key := by
  rw [sortEntries, lookup_foldl_insertEntry h]
  exact Option.or_none

theorem mem_of_mem_sortEntries {entries : List (String × α)} {e : String × α}
    (h : e ∈ sortEntries entries) : e ∈ entries := by
  have hfold : ∀ done, e ∈ entries.foldl (fun sorted e => insertEntry e.1 e.2 sorted) done ->
      e ∈ done ∨ e ∈ entries := by
    clear h
    induction entries with
    | nil => exact fun done h => Or.inl h
    | cons first rest ih =>
        intro done h
        rcases ih _ h with h | h
        · rcases mem_insertEntry h with rfl | h
          · exact Or.inr List.mem_cons_self
          · exact Or.inl h
        · exact Or.inr (List.mem_cons_of_mem first h)
  exact (hfold [] h).resolve_left List.not_mem_nil

theorem insertEntry_eq_append {entries : List (String × α)} {key : String} {value : α}
    (h : ∀ e ∈ entries, e.1 < key) : insertEntry key value entries = entries ++ [(key, value)] := by
  induction entries with
  | nil => rfl
  | cons e rest ih =>
      obtain ⟨k, v⟩ := e
      obtain ⟨hk, hrest⟩ := List.forall_mem_cons.1 h
      have hne : key ≠ k := fun heq => String.lt_irrefl k (heq ▸ hk)
      have hnot : ¬ key < k := fun hlt => String.lt_irrefl k (String.lt_trans hk hlt)
      rw [insertEntry, if_neg hnot, if_neg hne, ih hrest]
      rfl

theorem sortEntries_eq_self {entries : List (String × α)} (h : SortedByKey entries) :
    sortEntries entries = entries := by
  have hfold : ∀ done, SortedByKey (done ++ entries) ->
      entries.foldl (fun sorted e => insertEntry e.1 e.2 sorted) done = done ++ entries := by
    clear h
    induction entries with
    | nil => simp
    | cons e rest ih =>
        intro done hdone
        have hlast : ∀ d ∈ done, d.1 < e.1 :=
          fun d hd => (List.pairwise_append.1 hdone).2.2 d hd e List.mem_cons_self
        rw [List.foldl_cons, insertEntry_eq_append hlast, ih, List.append_assoc]
        · rfl
        · rwa [List.append_assoc]
  exact hfold [] h

end Entries

/-!
# Keys
-/

namespace Table

variable {α : Type} {t : Table α} {key : String}

theorem mem_keys : key ∈ t.keys <-> t.get? key ≠ none :=
  lookup_ne_none_iff.symm

theorem contains_iff : t.contains key <-> key ∈ t.keys := by
  simp [contains, keys]

theorem sorted_keys (t : Table α) : t.keys.Pairwise (· < ·) :=
  List.pairwise_map.2 t.sorted

theorem nodup_keys (t : Table α) : t.keys.Nodup := by
  refine t.sorted_keys.imp fun {a b} hlt heq => ?_
  rw [heq] at hlt
  exact String.lt_irrefl b hlt

theorem get?_ofList {entries : List (String × α)} (h : (entries.map Prod.fst).Nodup)
    {e : String × α} (he : e ∈ entries) : (ofList entries).get? e.1 = some e.2 :=
  (lookup_sortEntries h e.1).trans (lookup_eq_some_of_mem h he)

theorem mem_keys_ofList {entries : List (String × α)} :
    key ∈ (ofList entries).keys <-> key ∈ entries.map Prod.fst := by
  have hfold : ∀ done : List (String × α),
      (entries.foldl (fun done e => insertEntry e.1 e.2 done) done).lookup key ≠ none <->
        key ∈ entries.map Prod.fst ∨ done.lookup key ≠ none := by
    induction entries with
    | nil => simp
    | cons e rest ih =>
        intro done
        rw [List.foldl_cons, ih, lookup_insertEntry, List.map_cons, List.mem_cons]
        by_cases hkey : key = e.1 <;> simp [hkey]
  rw [mem_keys]
  exact (hfold []).trans (by simp)

theorem mem_keys_ofList_ids {ids : List String} :
    key ∈ (ofList (ids.map fun id => (id, ()))).keys <-> key ∈ ids := by
  rw [mem_keys_ofList, List.map_map]
  exact iff_of_eq (congrArg _ (List.map_id ids))

end Table
end Workflow
