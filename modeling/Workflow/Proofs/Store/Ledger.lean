import Mathlib.Data.List.Sort
import Workflow.Proofs.Store.Texts
import Workflow.Proofs.Table

/-!
# The store as a map

On a medium that takes every name the store is a map from ids to definitions.  Of the attempts to
save, any of which may fail at one of its steps, only those that succeed count: what was saved last
for an id is loaded, the ids that something was saved for are listed, and staging files are never
taken for definitions.
-/

namespace Workflow

/-!
# Ids in file names
-/

theorem FileName.id?_eq_some {name id : String} :
    id? name = some id <-> id ≠ "" ∧ name = ofId id := by
  have hnil : id ≠ "" <-> id.toList ≠ [] := not_congr String.toList_eq_nil_iff.symm
  have hlength : ending.length = ending.toList.length := String.length_toList.symm
  rw [hnil]
  constructor
  · intro h
    simp only [id?, Option.ite_none_right_eq_some, Option.some.injEq, Bool.and_eq_true,
      List.isSuffixOf_iff_suffix, Bool.not_eq_true', List.isEmpty_eq_false_iff] at h
    obtain ⟨⟨⟨stem, hstem⟩, hne⟩, rfl⟩ := h
    have htake : name.toList.take (name.toList.length - ending.length) = stem := by
      rw [hlength, ← hstem, List.length_append, Nat.add_sub_cancel, List.take_left]
    rw [htake] at hne ⊢
    refine ⟨by rwa [String.toList_ofList], String.toList_injective ?_⟩
    rw [ofId, String.toList_append, String.toList_ofList, hstem]
  · rintro ⟨hne, rfl⟩
    have hchars : (ofId id).toList = id.toList ++ ending.toList := String.toList_append
    have htake : (ofId id).toList.take ((ofId id).toList.length - ending.length) = id.toList := by
      rw [hlength, hchars, List.length_append, Nat.add_sub_cancel, List.take_left]
    have hsuffix : ending.toList.isSuffixOf (ofId id).toList :=
      List.isSuffixOf_iff_suffix.2 ⟨_, hchars.symm⟩
    simp [id?, htake, hsuffix, hne, String.ofList_toList]

/-!
# Plain directories
-/

namespace Directory

variable {d d' : Directory} {name text old new : String}

/-- A directory that takes every name and holds no folders. -/
structure Plain (d : Directory) : Prop where
  medium : d.medium = .unlimited
  files : ∀ t, d.entries = some t -> ∀ name, t.get? name ≠ some .folder

namespace Plain

theorem accepts (h : d.Plain) (name : String) : d.Accepts name := by
  simp [Accepts, h.medium, Medium.unlimited, Medium.refusesName, Medium.isTooLong]

theorem read_eq (h : d.Plain) (name : String) :
    d.read name = (d.text? name).elim (.error .notFound) .ok := by
  have hfound : ∀ e, d.read name = .error e -> e = .notFound := by
    intro e he
    cases ht : d.entries with
    | none =>
        rw [read, find?, (h.accepts name).1, ht] at he
        cases he
        rfl
    | some t =>
        rw [read, find?_of_accepts ht (h.accepts name)] at he
        cases hname : t.get? name with
        | none =>
            rw [hname] at he
            cases he
            rfl
        | some entry =>
            rw [hname] at he
            cases entry with
            | file text => cases he
            | folder => exact absurd hname (h.files t ht name)
  rw [text?]
  cases hread : d.read name with
  | error e => rw [hfound e hread, Except.toOption, Option.elim_none]
  | ok text => rfl

theorem mem_names (h : d.Plain) : name ∈ d.names <-> d.text? name ≠ none := by
  cases ht : d.entries with
  | none => simp [names, text?, read, find?, ht, (h.accepts name).1, Except.toOption]
  | some t =>
      have hnames : d.names = t.keys := by simp [names, ht]
      rw [hnames, Table.mem_keys, text?, read, find?_of_accepts ht (h.accepts name)]
      cases hname : t.get? name with
      | none => simp [Except.toOption]
      | some entry =>
          cases entry with
          | file text => simp [Except.toOption]
          | folder => exact absurd hname (h.files t ht name)

/-!
# Changes of plain directories
-/

theorem create (h : d.Plain) : d.create.Plain where
  medium := h.medium
  files := by
    intro t ht
    cases ht
    cases hentries : d.entries with
    | none => simp
    | some t => exact h.files t hentries

theorem write (h : d.Plain) (hwrite : d.write name text = .ok d') : d'.Plain := by
  obtain ⟨t, ht, -, rfl⟩ := exists_of_put hwrite
  refine ⟨h.medium, fun t' ht' other => ?_⟩
  cases ht'
  rw [Table.get?_insert]
  split
  · simp
  · exact h.files t ht other

theorem exists_write (h : d.Plain) {t : Table Entry} (ht : d.entries = some t)
    (name text : String) : ∃ d', d.write name text = .ok d' :=
  ⟨_, write_eq_ok ht (h.accepts name) (h.files t ht name)⟩

theorem rename (h : d.Plain) (hrename : d.rename old new = .ok d') : d'.Plain := by
  unfold Directory.rename at hrename
  split at hrename
  · cases hrename
  · split at hrename
    · cases hrename
    · next written hwrite =>
        cases hrename
        have hwritten := h.write hwrite
        refine ⟨hwritten.medium, fun t ht name => ?_⟩
        obtain ⟨t', ht', rfl⟩ := Option.map_eq_some_iff.1 ht
        rw [Table.get?_erase]
        split
        · simp
        · exact hwritten.files t' ht' name

theorem exists_rename (h : d.Plain) (hread : d.read old = .ok text) (new : String) :
    ∃ d', d.rename old new = .ok d' := by
  have hentries : ∃ t, d.entries = some t := by
    cases ht : d.entries with
    | none => simp [read, find?, ht, (h.accepts old).1] at hread
    | some t => exact ⟨t, rfl⟩
  obtain ⟨t, ht⟩ := hentries
  obtain ⟨written, hwrite⟩ := h.exists_write ht new text
  simp only [Directory.rename, hread, hwrite]
  exact ⟨_, rfl⟩

end Plain
end Directory

/-!
# One attempt
-/

namespace Store

variable {s s' : Store} {id i : String} {d : Definition} {fault : Option Fault}
  {dir : Directory} {text : String}

/-- What an attempt to save comes to: nothing but an id that is refused or a failure of the medium
stands in its way. -/
def outcome (id : String) (fault : Option Fault) : Except StoreError Unit :=
  if FileName.isValidId id then
    match fault with
    | none => .ok ()
    | some _ => .error (.io .device)
  else .error (.invalidId id)

theorem plain_stage_of_fault (h : dir.Plain) (id text : String) (left : Option String) :
    ∃ dir', dir'.Plain ∧ stage dir id text (some (.staging left)) = (.error .device, dir') := by
  refine ⟨_, ?_, rfl⟩
  cases left with
  | none => exact h
  | some left =>
      cases hwrite : dir.write (FileName.staging id) left with
      | error e => simpa [hwrite] using h
      | ok written => simpa [hwrite] using h.write hwrite

theorem plain_stage (h : dir.Plain) {t : Table Entry} (ht : dir.entries = some t)
    (id text : String) (fault : Option Fault)
    (hfault : ∀ left, fault ≠ some (.staging left)) :
    ∃ dir', dir'.Plain ∧ stage dir id text fault = (.ok (), dir') := by
  obtain ⟨written, hwrite⟩ := h.exists_write ht (FileName.staging id) text
  refine ⟨written, h.write hwrite, ?_⟩
  unfold stage
  split
  · next left => exact absurd rfl (hfault left)
  · rw [hwrite]

theorem plain_place (h : dir.Plain) (hread : dir.read (FileName.staging id) = .ok text) :
    ∃ dir', dir'.Plain ∧ place dir id none = (.ok (), dir') := by
  obtain ⟨renamed, hrename⟩ := h.exists_rename hread (FileName.ofId id)
  exact ⟨renamed, h.rename hrename, by simp only [place, hrename]⟩

theorem plain_save (h : s.directory.Plain) (id : String) (d : Definition) (fault : Option Fault) :
    ∃ s', s'.directory.Plain ∧ s.save id d fault = (outcome id fault, s') := by
  have hcreate := h.create
  have hentries : s.directory.create.entries = some _ := rfl
  cases hvalid : FileName.isValidId id with
  | false => exact ⟨s, h, by simp [save, outcome, hvalid]⟩
  | true =>
      cases fault with
      | none =>
          obtain ⟨staged, hplain, hstage⟩ := plain_stage hcreate hentries id d.text none (by simp)
          obtain ⟨placed, hplaced, hplace⟩ := plain_place hplain (read_of_stage hstage)
          exact ⟨⟨placed⟩, hplaced, by simp [save, outcome, hvalid, hstage, hplace]⟩
      | some f =>
          cases f with
          | create => exact ⟨s, h, by simp [save, outcome, hvalid]⟩
          | staging left =>
              obtain ⟨staged, hplain, hstage⟩ := plain_stage_of_fault hcreate id d.text left
              exact ⟨⟨staged⟩, hplain, by simp [save, outcome, hvalid, hstage]⟩
          | rename =>
              obtain ⟨staged, hplain, hstage⟩ := plain_stage hcreate hentries id d.text
                (some .rename) (by simp)
              exact ⟨⟨staged⟩, hplain, by simp [save, outcome, hvalid, hstage, place]⟩

end Store

/-!
# Sequences of attempts
-/

/-- An attempt to save a definition, and what fails in it. -/
structure Attempt where
  id : String
  definition : Definition
  fault : Option Fault := none

/-- A store with the saves that have succeeded so far, the last one first. -/
structure Ledger where
  store : Store
  saved : List (String × Definition) := []

namespace Ledger

variable {l : Ledger} {s' : Store} {id : String} {d : Definition} {fault : Option Fault}

def attempt (l : Ledger) (a : Attempt) : Ledger :=
  match l.store.save a.id a.definition a.fault with
  | (.ok (), store) => ⟨store, (a.id, a.definition) :: l.saved⟩
  | (.error _, store) => ⟨store, l.saved⟩

def attemptAll (l : Ledger) (attempts : List Attempt) : Ledger :=
  attempts.foldl attempt l

theorem attempt_of_ok (h : l.store.save id d fault = (.ok (), s')) :
    l.attempt ⟨id, d, fault⟩ = ⟨s', (id, d) :: l.saved⟩ := by
  rw [attempt, h]

theorem attempt_of_error {e : StoreError} (h : l.store.save id d fault = (.error e, s')) :
    l.attempt ⟨id, d, fault⟩ = ⟨s', l.saved⟩ := by
  rw [attempt, h]

/-- The store holds the text of the last save for each id and of nothing else. -/
structure Faithful (l : Ledger) : Prop where
  plain : l.store.directory.Plain
  stored : ∀ id, l.store.text? id = (l.saved.lookup id).map Definition.text
  valid : ∀ p ∈ l.saved, FileName.isValidId p.1

theorem faithful_empty {s : Store} (hmedium : s.directory.medium = .unlimited)
    (hempty : s.directory.names = []) : Faithful ⟨s, []⟩ := by
  have hnames : ∀ t, s.directory.entries = some t -> ∀ name, t.get? name = none := by
    intro t ht name
    have hkeys : t.keys = [] := by simpa [Directory.names, ht] using hempty
    by_contra hname
    have hmem := Table.mem_keys.2 hname
    rw [hkeys] at hmem
    exact List.not_mem_nil hmem
  have hplain : s.directory.Plain := ⟨hmedium, fun t ht name => by simp [hnames t ht name]⟩
  refine ⟨hplain, fun id => ?_, fun _ hp => absurd hp List.not_mem_nil⟩
  by_contra htext
  have hmem := hplain.mem_names.2 htext
  rw [hempty] at hmem
  exact List.not_mem_nil hmem

namespace Faithful

theorem attempt (h : l.Faithful) (a : Attempt) : (l.attempt a).Faithful := by
  obtain ⟨id, d, fault⟩ := a
  obtain ⟨store, hplain, hsave⟩ := Store.plain_save h.plain id d fault
  cases hresult : Store.outcome id fault with
  | error e =>
      rw [hresult] at hsave
      rw [attempt_of_error hsave]
      refine ⟨hplain, fun id => ?_, h.valid⟩
      rw [Store.text?_save hsave (Or.inr (by simp)), h.stored]
  | ok u =>
      rw [hresult] at hsave
      rw [attempt_of_ok hsave]
      refine ⟨hplain, fun id => ?_, List.forall_mem_cons.2 ⟨(Store.read_of_save hsave).1, h.valid⟩⟩
      rw [lookup_cons_pair]
      split
      · next heq =>
          rw [heq]
          exact Store.text?_of_save hsave
      · next hne => rw [Store.text?_save hsave (Or.inl hne), h.stored]

theorem attemptAll (attempts : List Attempt) : ∀ {l : Ledger}, l.Faithful ->
    (l.attemptAll attempts).Faithful := by
  induction attempts with
  | nil => exact fun h => h
  | cons a rest ih => exact fun h => ih (h.attempt a)

/-- Those attempts succeed that have a valid id and no fault. -/
theorem saved_attempt (h : l.Faithful) (a : Attempt) : (l.attempt a).saved =
    if FileName.isValidId a.id && a.fault.isNone then (a.id, a.definition) :: l.saved
    else l.saved := by
  obtain ⟨id, d, fault⟩ := a
  obtain ⟨store, -, hsave⟩ := Store.plain_save h.plain id d fault
  unfold Store.outcome at hsave
  cases hvalid : FileName.isValidId id with
  | false =>
      rw [hvalid] at hsave
      rw [attempt_of_error hsave]
      rfl
  | true =>
      rw [hvalid, if_pos rfl] at hsave
      cases fault with
      | none =>
          rw [attempt_of_ok hsave]
          rfl
      | some f =>
          rw [attempt_of_error hsave]
          rfl

theorem saved_attemptAll (attempts : List Attempt) : ∀ {l : Ledger}, l.Faithful ->
    (l.attemptAll attempts).saved =
      ((attempts.filter fun a => FileName.isValidId a.id && a.fault.isNone).map fun a =>
        (a.id, a.definition)).reverse ++ l.saved := by
  induction attempts with
  | nil => exact fun _ => rfl
  | cons a rest ih =>
      intro l h
      refine (ih (h.attempt a)).trans ?_
      rw [h.saved_attempt, List.filter_cons]
      split <;> simp

/-- What is loaded for an id is what was saved last for it. -/
theorem load_eq (h : l.Faithful) (id : String) : l.store.load id =
    if FileName.isValidId id then
      match l.saved.lookup id with
      | some d => (Definition.load? d.text).mapError .load
      | none => .error (.notFound id)
    else .error (.invalidId id) := by
  cases hvalid : FileName.isValidId id with
  | false => simp [Store.load, hvalid]
  | true =>
      rw [if_pos rfl]
      have hstored := h.stored id
      cases hlast : l.saved.lookup id with
      | some d =>
          rw [hlast] at hstored
          exact Store.load_of_text? hvalid hstored
      | none =>
          rw [hlast] at hstored
          have hread := h.plain.read_eq (FileName.ofId id)
          rw [show l.store.directory.text? (FileName.ofId id) = none from hstored] at hread
          simp [Store.load, hvalid, hread]

theorem mem_list (h : l.Faithful) : id ∈ l.store.list <-> ∃ d, (id, d) ∈ l.saved := by
  have hsaved : (∃ d, (id, d) ∈ l.saved) <-> l.saved.lookup id ≠ none := by
    rw [lookup_ne_none_iff, List.mem_map]
    simp
  have hname : FileName.ofId id ∈ l.store.directory.names <-> l.saved.lookup id ≠ none := by
    rw [h.plain.mem_names]
    change l.store.text? id ≠ none <-> _
    rw [h.stored]
    simp
  rw [Store.list, Table.mem_keys_ofList_ids, List.mem_filterMap, hsaved, ← hname]
  simp only [FileName.id?_eq_some]
  constructor
  · rintro ⟨name, hmem, -, rfl⟩
    exact hmem
  · intro hmem
    obtain ⟨d, hd⟩ := hsaved.2 (hname.1 hmem)
    exact ⟨_, hmem, (FileName.isValidId_iff.1 (h.valid _ hd)).1, rfl⟩

end Faithful
end Ledger

namespace Store

theorem sorted_list (s : Store) : s.list.Pairwise (· < ·) :=
  Table.sorted_keys _

/-- On a medium that takes every name, loading and listing show the saves that succeeded, and an
attempt that fails shows nowhere. -/
theorem load_and_list_attemptAll {s : Store} (hmedium : s.directory.medium = .unlimited)
    (hempty : s.directory.names = []) (attempts : List Attempt) :
    let l := Ledger.attemptAll ⟨s, []⟩ attempts
    (∀ id, l.store.load id =
      if FileName.isValidId id then
        match l.saved.lookup id with
        | some d => (Definition.load? d.text).mapError .load
        | none => .error (.notFound id)
      else .error (.invalidId id)) ∧
    (∀ id, id ∈ l.store.list <-> ∃ d, (id, d) ∈ l.saved) ∧ l.store.list.Pairwise (· < ·) ∧
    ∀ id d fault, ∃ s', l.store.save id d fault = (outcome id fault, s') ∧
      (outcome id fault ≠ .ok () -> s'.list = l.store.list ∧ ∀ i, s'.load i = l.store.load i) := by
  intro l
  have h : l.Faithful := (Ledger.faithful_empty hmedium hempty).attemptAll attempts
  refine ⟨h.load_eq, fun id => h.mem_list, sorted_list _, fun id d fault => ?_⟩
  obtain ⟨s', -, hsave⟩ := plain_save h.plain id d fault
  refine ⟨s', hsave, fun hfailed => ?_⟩
  obtain ⟨e, he⟩ : ∃ e, outcome id fault = .error e := by
    cases hresult : outcome id fault with
    | error e => exact ⟨e, rfl⟩
    | ok u => exact absurd hresult hfailed
  have hafter : l.attempt ⟨id, d, fault⟩ = ⟨s', l.saved⟩ :=
    Ledger.attempt_of_error (he ▸ hsave)
  have h' : Ledger.Faithful ⟨s', l.saved⟩ := hafter ▸ h.attempt ⟨id, d, fault⟩
  have hsorted : s'.list.Pairwise (· < ·) := sorted_list s'
  refine ⟨?_, fun i => (h'.load_eq i).trans (h.load_eq i).symm⟩
  exact hsorted.eq_of_mem_iff (sorted_list l.store) fun i => h'.mem_list.trans h.mem_list.symm

/-- Two ids of which the second looks like the file of the first, with saves that fail between. -/
def chargesAttempts : List Attempt :=
  [⟨"charges", .charges, none⟩, ⟨"charges", .nested 1, some .rename⟩, ⟨"..", .charges, none⟩,
    ⟨"charges.json", .nested 1, none⟩, ⟨"pause", .nested 0, some (.staging (some "\x7b"))⟩]

theorem load_and_list_attemptAll_charges :
    let s : Store := { directory := { medium := .unlimited } }
    let l := Ledger.attemptAll ⟨s, []⟩ chargesAttempts
    s.directory.medium = .unlimited ∧ s.directory.names = [] ∧
      (∀ id, id ∈ l.store.list <-> id = "charges.json" ∨ id = "charges") ∧
      l.store.load "charges" = .ok .charges ∧
      l.store.load "pause" = .error (.notFound "pause") ∧
      l.store.load ".." = .error (.invalidId "..") := by
  intro s l
  obtain ⟨hload, hlist, -⟩ := load_and_list_attemptAll (s := s) rfl rfl chargesAttempts
  have hcharges : FileName.isValidId "charges" = true := FileName.isValidId_iff.2 (by decide)
  have hjson : FileName.isValidId "charges.json" = true := FileName.isValidId_iff.2 (by decide)
  have hpause : FileName.isValidId "pause" = true := FileName.isValidId_iff.2 (by decide)
  have hdots : FileName.isValidId ".." = false :=
    Bool.eq_false_iff.2 fun h => absurd (FileName.isValidId_iff.1 h) (by decide)
  have hsaved : l.saved = [("charges.json", .nested 1), ("charges", .charges)] := by
    refine ((Ledger.faithful_empty (s := s) rfl rfl).saved_attemptAll chargesAttempts).trans ?_
    simp [chargesAttempts, hcharges, hjson, hdots]
  have hlast : l.saved.lookup "charges" = some .charges ∧ l.saved.lookup "pause" = none := by
    rw [hsaved]
    exact ⟨rfl, rfl⟩
  have htext : Definition.load? Definition.charges.text = .ok .charges := by
    have hdepth : Definition.charges.toJson.depth <= Json.maxDepth := by decide +kernel
    rw [Definition.load?_text rfl Definition.storable_charges, if_pos hdepth]
  refine ⟨rfl, rfl, fun id => ?_, ?_, ?_, ?_⟩
  · rw [hlist, hsaved]
    simp [exists_or]
  · rw [hload, hcharges, if_pos rfl, hlast.1]
    dsimp only
    rw [htext, Except.mapError]
  · rw [hload, hpause, if_pos rfl, hlast.2]
  · rw [hload, hdots, if_neg Bool.false_ne_true]

end Store
end Workflow
