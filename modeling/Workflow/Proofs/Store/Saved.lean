import Workflow.Proofs.Definition.Document
import Workflow.Store.Basic

/-!
# Saved definitions

A save that succeeds leaves the text of the definition in its file.  A text can be loaded as long
as the reader has room for its containers: every definition is loaded as it was saved, unless it
is nested too deep to be read at all.
-/

namespace Workflow

open Json

/-!
# Names of files
-/

theorem any_eq_any_toList (s : String) (p : Char -> Bool) : s.any p = s.toList.any p :=
  String.contains_bool_eq

theorem FileName.isValidId_iff {id : String} : isValidId id <->
    id ≠ "" ∧ id ≠ "." ∧ id ≠ ".." ∧ '/' ∉ id.toList ∧ '\\' ∉ id.toList := by
  have hany : (id.toList.any fun c => c == '/' || c == '\\') = false <->
      '/' ∉ id.toList ∧ '\\' ∉ id.toList := by
    simp [List.any_eq_false, forall_and, List.forall_mem_ne']
  rw [isValidId, any_eq_any_toList]
  simp [hany, and_assoc]

theorem Medium.refusesName_iff {m : Medium} {name : String} :
    m.refusesName name <-> m.refusesNul ∧ '\x00' ∈ name.toList := by
  simp [refusesName, any_eq_any_toList]

/-!
# Files
-/

namespace Directory

variable {d d' : Directory} {name text : String}

/-- The medium of a directory takes a name. -/
def Accepts (d : Directory) (name : String) : Prop :=
  d.medium.refusesName name = false ∧ d.medium.isTooLong name = false

theorem find?_of_accepts {t : Table Entry} (ht : d.entries = some t) (h : d.Accepts name) :
    d.find? name = match t.get? name with
      | none => .error .notFound
      | some e => .ok e := by
  obtain ⟨hnul, hlong⟩ := h
  cases hname : t.get? name <;> simp [find?, ht, hnul, hlong, hname]

theorem accepts_of_find? {t : Table Entry} (ht : d.entries = some t)
    (h : ∀ e, d.find? name = .error e -> e = .notFound) : d.Accepts name := by
  unfold find? at h
  constructor
  · cases hnul : d.medium.refusesName name with
    | false => rfl
    | true =>
        rw [hnul] at h
        cases h _ rfl
  · cases hlong : d.medium.isTooLong name with
    | false => rfl
    | true =>
        cases hnul : d.medium.refusesName name with
        | true =>
            rw [hnul] at h
            cases h _ rfl
        | false =>
            rw [hnul, ht, hlong] at h
            cases h _ rfl

theorem exists_of_put {entry : Entry} (h : d.put name entry = .ok d') : ∃ t,
    d.entries = some t ∧ d.Accepts name ∧
      d' = { d with entries := some (t.insert name entry) } := by
  unfold put at h
  split at h
  · cases h
  · next hfind ht =>
      cases h
      refine ⟨_, ht, accepts_of_find? ht fun e he => ?_, rfl⟩
      cases hfind.symm.trans he
  · next hfind ht =>
      cases h
      refine ⟨_, ht, accepts_of_find? ht fun e he => ?_, rfl⟩
      cases hfind.symm.trans he
      rfl
  · cases h
  · cases h

theorem write_eq_ok {t : Table Entry} (ht : d.entries = some t) (h : d.Accepts name)
    (hfolder : t.get? name ≠ some .folder) :
    d.write name text = .ok { d with entries := some (t.insert name (.file text)) } := by
  rw [write, put, find?_of_accepts ht h, ht]
  cases he : t.get? name with
  | none => rfl
  | some e =>
      cases e with
      | file old => rfl
      | folder => exact absurd he hfolder

theorem read_of_get? {t : Table Entry} (ht : d.entries = some t) (h : d.Accepts name)
    (hname : t.get? name = some (.file text)) : d.read name = .ok text := by
  rw [read, find?_of_accepts ht h, hname]

theorem read_of_write (h : d.write name text = .ok d') : d'.read name = .ok text := by
  obtain ⟨t, -, haccepts, rfl⟩ := exists_of_put h
  exact read_of_get? rfl haccepts (by rw [Table.get?_insert, if_pos rfl])

theorem read_of_rename {old new : String} (hne : new ≠ old) (hread : d.read old = .ok text)
    (h : d.rename old new = .ok d') : d'.read new = .ok text := by
  rw [rename, hread] at h
  dsimp only at h
  cases hwrite : d.write new text with
  | error e =>
      rw [hwrite] at h
      cases h
  | ok d₁ =>
      rw [hwrite] at h
      cases h
      obtain ⟨t, -, haccepts, rfl⟩ := exists_of_put hwrite
      refine read_of_get? rfl haccepts ?_
      rw [Table.get?_erase, if_neg hne, Table.get?_insert, if_pos rfl]

end Directory

/-!
# Texts of definitions
-/

namespace Definition

theorem version?_canonical (d : Definition) :
    version? d.toJson.canonical = some d.version.toNat := by
  have hnat : (0 : Int) <= d.version.toNat := Int.natCast_nonneg _
  change version? (Arrangement.sorted.form d.toJson) = _
  rw [form_toJson, version?, get?, lookup_version, ofWord32]
  dsimp only
  rw [if_pos hnat, Int.toNat_natCast]

theorem ofDocument?_eq_ok {v : Json} {d : Definition}
    (hversion : version? v = some currentVersion.toNat) (hv : ofJson? v = some d) :
    ofDocument? v = .ok d := by
  have hsize : ¬ UInt32.size <= currentVersion.toNat := by decide
  have hcurrent : upgrade v (UInt32.ofNat currentVersion.toNat) = .ok (v, currentVersion) := by
    rw [UInt32.ofNat_toNat]
    exact if_pos rfl
  simp only [ofDocument?, hversion, if_neg hsize, hcurrent, hv]

/-- The text of a definition is loaded as the definition, unless it is too deep. -/
theorem load?_text {d : Definition} (hversion : d.version = currentVersion)
    (hfree : ∀ v ∈ d.freeValues, v.Storable) :
    load? d.text = if d.toJson.depth <= maxDepth then .ok d else .error .notJson := by
  have hread : ofJson? d.toJson.canonical = some d :=
    ofJson?_form .sorted fun v hv => ⟨(hfree v hv).notNull, (hfree v hv).canonical⟩
  rw [load?, text, parse?_pretty (exact_toJson fun v hv => (hfree v hv).exact)]
  by_cases hdepth : d.toJson.depth <= maxDepth
  · rw [if_pos hdepth, if_pos hdepth]
    exact ofDocument?_eq_ok (hversion ▸ version?_canonical d) hread
  · rw [if_neg hdepth, if_neg hdepth]

end Definition

/-!
# The store
-/

namespace Store

variable {s s' : Store} {id : String} {d : Definition} {fault : Option Fault}

theorem ofId_ne_staging (id id' : String) : FileName.ofId id ≠ FileName.staging id' := by
  intro heq
  have hlast := congrArg (fun s => s.toList.getLast?) heq
  simp [FileName.ofId, FileName.staging, FileName.ending] at hlast

theorem read_of_stage {d d' : Directory} {text : String}
    (h : stage d id text fault = (.ok (), d')) : d'.read (FileName.staging id) = .ok text := by
  unfold stage at h
  split at h
  · cases h
  · cases hwrite : d.write (FileName.staging id) text with
    | error e =>
        rw [hwrite] at h
        cases h
    | ok d₁ =>
        rw [hwrite] at h
        cases h
        exact Directory.read_of_write hwrite

theorem read_of_place {d d' : Directory} {text : String}
    (hread : d.read (FileName.staging id) = .ok text) (h : place d id fault = (.ok (), d')) :
    d'.read (FileName.ofId id) = .ok text := by
  unfold place at h
  split at h
  · cases h
  · cases hrename : d.rename (FileName.staging id) (FileName.ofId id) with
    | error e =>
        rw [hrename] at h
        cases h
    | ok d₁ =>
        rw [hrename] at h
        cases h
        exact Directory.read_of_rename (ofId_ne_staging id id) hread hrename

theorem read_of_save (h : s.save id d fault = (.ok (), s')) :
    FileName.isValidId id ∧ s'.directory.read (FileName.ofId id) = .ok d.text := by
  unfold save at h
  cases hvalid : FileName.isValidId id with
  | false =>
      rw [hvalid] at h
      cases h
  | true =>
      rw [hvalid] at h
      simp only [Bool.not_true, Bool.false_eq_true, if_false] at h
      refine ⟨rfl, ?_⟩
      split at h
      · cases h
      · split at h
        · cases h
        · next staged hstage =>
            split at h
            · cases h
            · next placed hplace =>
                cases h
                exact read_of_place (read_of_stage hstage) hplace

theorem exists_save {t : Table Entry} (ht : s.directory.create.entries = some t)
    (hvalid : FileName.isValidId id) (hstaging : s.directory.Accepts (FileName.staging id))
    (hfile : s.directory.Accepts (FileName.ofId id))
    (hfolders : t.get? (FileName.staging id) ≠ some .folder ∧
      t.get? (FileName.ofId id) ≠ some .folder) (d : Definition) :
    ∃ s', s.save id d = (.ok (), s') := by
  have hstage : s.directory.create.write (FileName.staging id) d.text = .ok _ :=
    Directory.write_eq_ok ht hstaging hfolders.1
  have hother : (t.insert (FileName.staging id) (.file d.text)).get? (FileName.ofId id) ≠
      some .folder := by
    rw [Table.get?_insert, if_neg (ofId_ne_staging id id)]
    exact hfolders.2
  have hread := Directory.read_of_write hstage
  have hplace : ({ s.directory.create with
      entries := some (t.insert (FileName.staging id) (.file d.text)) } : Directory).write
        (FileName.ofId id) d.text = .ok _ := Directory.write_eq_ok rfl hfile hother
  simp only [save, hvalid, stage, place, hstage, Directory.rename, hread, hplace]
  exact ⟨_, rfl⟩

theorem exists_save_new (hvalid : FileName.isValidId id) (hnul : '\x00' ∉ id.toList)
    (hshort : id.utf8ByteSize + 9 <= 255) (d : Definition) : ∃ s', save {} id d = (.ok (), s') := by
  have haccepts : ∀ name : String, '\x00' ∉ name.toList -> name.utf8ByteSize <= 255 ->
      ({} : Store).directory.Accepts name := fun name hname hsize =>
    ⟨Bool.eq_false_iff.2 fun h => hname (Medium.refusesName_iff.1 h).2,
      decide_eq_false (Nat.not_lt.2 hsize)⟩
  have hending : ".json".utf8ByteSize = 5 := by decide
  have hstaging : ".tmp".utf8ByteSize = 4 := by decide
  refine exists_save (s := {}) (t := .empty) rfl hvalid (haccepts _ ?_ ?_) (haccepts _ ?_ ?_)
    ⟨by simp, by simp⟩ d
  · simp [FileName.staging, FileName.ending, hnul]
  · rw [FileName.staging, FileName.ending, String.utf8ByteSize_append, String.utf8ByteSize_append]
    omega
  · simp [FileName.ofId, FileName.ending, hnul]
  · rw [FileName.ofId, FileName.ending, String.utf8ByteSize_append]
    omega

theorem load_of_read {text : String} (hvalid : FileName.isValidId id)
    (hread : s.directory.read (FileName.ofId id) = .ok text) :
    s.load id = (Definition.load? text).mapError .load := by
  rw [load, hvalid, hread]
  simp only [Bool.not_true, Bool.false_eq_true, if_false]
  cases Definition.load? text <;> rfl

/-- A definition that was saved is loaded again, unless its text is too deep to be read. -/
theorem load_of_save (hversion : d.version = Definition.currentVersion)
    (hfree : ∀ v ∈ d.freeValues, v.Storable) (hsave : s.save id d fault = (.ok (), s')) :
    s'.load id =
      if d.toJson.depth <= maxDepth then .ok d else .error (.load .notJson) := by
  obtain ⟨hvalid, hread⟩ := read_of_save hsave
  rw [load_of_read hvalid hread, Definition.load?_text hversion hfree]
  split <;> rfl

end Store

/-!
# A definition with free values
-/

/-- One half. -/
def Number.Double.half : Number.Double := ⟨0x3FE0000000000000⟩

theorem Json.readsBack_half : (real .half).ReadsBack := by
  have hchars : writeDouble .half = "0.5".toList := by decide +kernel
  have hscale : Number.Double.scale? (Number.Double.roundRatio 5 1) (-1) =
      some Number.Double.half.magnitude := by
    rw [Number.Double.scale?]
    decide +kernel
  have hdouble : Numeral.double? ⟨false, ['0'], ['5'], none⟩ = some .half := by
    rw [Numeral.double?, Number.Double.ofScaled?]
    change (Number.Double.scale? (Number.Double.roundRatio 5 1) (-1)).map _ = _
    rw [hscale]
    rfl
  refine readsBack_real_iff.2 ⟨⟨false, ['0'], ['5'], none⟩, ?_, ?_⟩
  · rw [hchars]
    exact scalar?_of_ofChars? (by decide)
  · have hint : Numeral.int? ⟨false, ['0'], ['5'], none⟩ = none := by decide
    rw [Numeral.value?, hint, hdouble]
    rfl

def Definition.charges : Definition where
  version := 3
  title := "charges"
  parameters := [{ key := "rate", source := .workflow .float (some (.real .half)) }]
  blocks :=
    [.loop { label := "each" } { loopOver := some "orders" }
      [.conditional { label := "pick" }
        [({ id := "large", label := "If", expression := some "total > 100" },
          [.leaf { label := "charge" } (.httpRequest
            { method := .post, body := some (.obj [("amount", .int (-7)), ("tags", .arr [])]) })]),
          ({ id := "rest", label := "Else", isDefault := true }, [])]]]

theorem Definition.storable_charges : ∀ v ∈ charges.freeValues, v.Storable := by
  have hbody : Json.Kept (.obj [("amount", .int (-7)), ("tags", .arr [])]) :=
    ⟨by rfl, (by decide : fitsInteger (-7)), trivial, trivial⟩
  intro v hv
  have hmem : v ∈ [.real .half, .obj [("amount", .int (-7)), ("tags", .arr [])]] := hv
  rcases List.mem_pair.1 hmem with rfl | rfl
  · exact ⟨⟨rfl, readsBack_half⟩, Json.noConfusion⟩
  · exact ⟨hbody, Json.noConfusion⟩

theorem Store.load_of_save_charges : Definition.charges.version = Definition.currentVersion ∧
    (∀ v ∈ Definition.charges.freeValues, v.Storable) ∧
    ∃ s', save {} "charges" .charges = (.ok (), s') ∧ s'.load "charges" = .ok .charges := by
  have hdepth : Definition.charges.toJson.depth <= maxDepth := by decide +kernel
  have hname : FileName.isValidId "charges" = true := FileName.isValidId_iff.2 (by decide)
  obtain ⟨s', hsave⟩ := exists_save_new hname (by decide) (by decide) .charges
  refine ⟨rfl, Definition.storable_charges, s', hsave, ?_⟩
  rw [load_of_save rfl Definition.storable_charges hsave, if_pos hdepth]

/-!
# Nested loops
-/

theorem Descriptor.depth_loop (h : Heading) (a : Attributes.Loop) (children : List Descriptor) :
    (loop h a children).toJson.depth = depthItems (listToJson children) + 2 := by
  obtain ⟨label, continueOnFailure, model⟩ := h
  obtain ⟨loopOver, completeIfEmpty⟩ := a
  cases model <;> cases loopOver <;>
    simp [toJson, Heading.members, Attributes.Loop.members, present, depth, depthMembers, ofName]

/-- Loops inside each other around a pause. -/
def Descriptor.nested : Nat -> Descriptor
  | 0 => .leaf { label := "pause" } (.wait {})
  | n + 1 => .loop { label := s!"loop {n}" } {} [nested n]

theorem Descriptor.depth_nested (n : Nat) : (nested n).toJson.depth = 2 * n + 1 := by
  induction n with
  | zero => rfl
  | succ n ih =>
      rw [nested, depth_loop, listToJson, listToJson, depthItems, depthItems, ih]
      omega

namespace Definition

def nested (n : Nat) : Definition :=
  ⟨currentVersion, "nested", [], [.nested n]⟩

theorem depth_nested (n : Nat) : (nested n).toJson.depth = 2 * n + 3 := by
  simp [nested, toJson, Descriptor.listToJson, depth, depthMembers, depthItems, ofWord32,
    Descriptor.depth_nested]

theorem freeValues_nested (n : Nat) : (nested n).freeValues = [] := by
  have hblocks : ∀ n, (Descriptor.nested n).inOrder.flatMap Descriptor.freeValues = [] := by
    intro n
    induction n with
    | zero => rfl
    | succ n ih =>
        rw [Descriptor.nested, Descriptor.inOrder, Descriptor.listInOrder, Descriptor.listInOrder,
          List.append_nil, List.flatMap_cons, ih]
        rfl
  rw [freeValues, allBlocks, nested, Descriptor.listInOrder, Descriptor.listInOrder,
    List.append_nil, hblocks]
  rfl

/-- Of loops inside each other the text of at most 62 can be loaded. -/
theorem load?_text_nested (n : Nat) :
    load? (nested n).text = if n <= 62 then .ok (nested n) else .error .notJson := by
  have hfree : ∀ v ∈ (nested n).freeValues, v.Storable := by
    rw [freeValues_nested]
    exact fun _ hv => absurd hv List.not_mem_nil
  have hroom : (nested n).toJson.depth <= maxDepth <-> n <= 62 := by
    rw [depth_nested, maxDepth]
    omega
  rw [load?_text rfl hfree]
  simp only [hroom]

end Definition

/-- A definition that is saved without an error and that cannot be loaded. -/
theorem Store.load_of_save_nested : (Definition.nested 63).version = Definition.currentVersion ∧
    (Definition.nested 63).freeValues = [] ∧
    ∃ s', save {} "nested" (.nested 63) = (.ok (), s') ∧
      s'.load "nested" = .error (.load .notJson) := by
  have hname : FileName.isValidId "nested" = true := FileName.isValidId_iff.2 (by decide)
  obtain ⟨s', hsave⟩ := exists_save_new hname (by decide) (by decide) (.nested 63)
  obtain ⟨hvalid, hread⟩ := read_of_save hsave
  refine ⟨rfl, Definition.freeValues_nested 63, s', hsave, ?_⟩
  rw [load_of_read hvalid hread, Definition.load?_text_nested]
  rfl

end Workflow
