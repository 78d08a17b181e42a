import Workflow.Proofs.Store.Saved

/-!
# Texts in the store

A save that succeeds changes the text of its own workflow and of no other; a save that fails
changes none.  What is in the way between the two are the staging files, whose names are not those
of any definition.
-/

namespace Workflow

/-!
# Texts of a directory
-/

namespace Directory

variable {d d' : Directory} {name old new text n : String}

/-- The text of a file, if there is one that can be read. -/
def text? (d : Directory) (name : String) : Option String :=
  (d.read name).toOption

theorem text?_congr {t t' : Table Entry} (ht : d.entries = some t) (ht' : d'.entries = some t')
    (hmedium : d'.medium = d.medium) (h : t'.get? n = t.get? n) : d'.text? n = d.text? n := by
  simp only [text?, read, find?, ht, ht', hmedium, h]

theorem text?_create (d : Directory) (n : String) : d.create.text? n = d.text? n := by
  cases ht : d.entries with
  | some t => exact text?_congr ht (by rw [create, ht]; rfl) rfl rfl
  | none =>
      simp only [text?, read, find?, create, ht, Option.getD_none, Table.get?_empty]
      cases d.medium.refusesName n <;> cases d.medium.isTooLong n <;> rfl

theorem text?_write (h : d.write name text = .ok d') :
    d'.text? n = if n = name then some text else d.text? n := by
  split
  · next heq => rw [text?, heq, read_of_write h, Except.toOption]
  · next hne =>
      obtain ⟨t, ht, -, rfl⟩ := exists_of_put h
      exact text?_congr ht rfl rfl (by rw [Table.get?_insert, if_neg hne])

theorem text?_rename (h : d.rename old new = .ok d') (hnew : n ≠ new) (hold : n ≠ old) :
    d'.text? n = d.text? n := by
  unfold rename at h
  split at h
  · cases h
  · split at h
    · cases h
    · next hwrite =>
        cases h
        obtain ⟨t, ht, -, rfl⟩ := exists_of_put hwrite
        refine text?_congr ht rfl rfl ?_
        rw [Table.get?_erase, if_neg hold, Table.get?_insert, if_neg hnew]

end Directory

/-!
# Texts of the store
-/

namespace Store

variable {s s' : Store} {id i : String} {d : Definition} {fault : Option Fault}

theorem ofId_injective : Function.Injective FileName.ofId := by
  intro id id' h
  have h := congrArg String.toList h
  simp only [FileName.ofId, String.toList_append] at h
  exact String.toList_injective (List.append_cancel_right h)

/-- The text that is stored for a workflow. -/
def text? (s : Store) (id : String) : Option String :=
  s.directory.text? (FileName.ofId id)

theorem text?_stage {dir dir' : Directory} {text : String} {result : Except IoError Unit}
    (h : stage dir id text fault = (result, dir')) :
    dir'.text? (FileName.ofId i) = dir.text? (FileName.ofId i) := by
  have hwrite : ∀ {left : String} {written : Directory},
      dir.write (FileName.staging id) left = .ok written ->
        written.text? (FileName.ofId i) = dir.text? (FileName.ofId i) := by
    intro left written hwrite
    rw [Directory.text?_write hwrite, if_neg (ofId_ne_staging i id)]
  unfold stage at h
  split at h
  · next left =>
      cases left with
      | none =>
          cases h
          rfl
      | some left =>
          cases hleft : dir.write (FileName.staging id) left with
          | error e =>
              simp only [Option.map_some, hleft] at h
              cases h
              rfl
          | ok written =>
              simp only [Option.map_some, hleft] at h
              cases h
              exact hwrite hleft
  · split at h
    · cases h
      rfl
    · next htext =>
        cases h
        exact hwrite htext

theorem text?_place {dir dir' : Directory} {result : Except IoError Unit}
    (h : place dir id fault = (result, dir')) (hother : i ≠ id ∨ result ≠ .ok ()) :
    dir'.text? (FileName.ofId i) = dir.text? (FileName.ofId i) := by
  unfold place at h
  split at h
  · cases h
    rfl
  · split at h
    · cases h
      rfl
    · next hrename =>
        cases h
        have hne : i ≠ id := hother.resolve_right (not_not.2 rfl)
        exact Directory.text?_rename hrename (fun heq => hne (ofId_injective heq))
          (ofId_ne_staging i id)

theorem text?_save {result : Except StoreError Unit} (h : s.save id d fault = (result, s'))
    (hother : i ≠ id ∨ result ≠ .ok ()) : s'.text? i = s.text? i := by
  unfold save at h
  split at h
  · cases h
    rfl
  · split at h
    · cases h
      rfl
    · have hcreate := s.directory.text?_create (FileName.ofId i)
      split at h
      · next hstage =>
          cases h
          exact (text?_stage hstage).trans hcreate
      · next staged hstage =>
          have hstaged := (text?_stage (i := i) hstage).trans hcreate
          split at h
          · next hplace =>
              cases h
              exact (text?_place hplace (Or.inr (by simp))).trans hstaged
          · next hplace =>
              cases h
              have hne := hother.resolve_right (not_not.2 rfl)
              exact (text?_place hplace (Or.inl hne)).trans hstaged

theorem text?_of_save (h : s.save id d fault = (.ok (), s')) : s'.text? id = some d.text := by
  rw [text?, Directory.text?, (read_of_save h).2, Except.toOption]

theorem load_of_text? {text : String} (hvalid : FileName.isValidId id)
    (h : s.text? id = some text) : s.load id = (Definition.load? text).mapError .load := by
  apply load_of_read hvalid
  unfold text? Directory.text? at h
  cases hread : s.directory.read (FileName.ofId id) with
  | error e =>
      rw [hread] at h
      cases h
  | ok stored =>
      rw [hread] at h
      cases h
      rfl

end Store
end Workflow
