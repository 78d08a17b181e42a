import Workflow.Definition.Json
import Workflow.Proofs.Json.Members

/-!
# Records of a definition

Every record of a definition is written as its fields and read again from any members that hold
them: attributes, headings, branches and parameters.  Some optional fields may hold any value;
it has to be kept by the document and must not be null, which stands for no value.
-/

namespace Workflow

open Json

namespace Json

/-!
# Values of fields
-/

@[simp] theorem text?_str (s : String) : text? (str s) = some s := rfl

@[simp] theorem flag?_bool (b : Bool) : flag? (bool b) = some b := rfl

@[simp] theorem word32?_ofWord32 (n : UInt32) : word32? (ofWord32 n) = some n := by
  have hlt := n.toNat_lt
  simp [word32?, ofWord32, below?, UInt32.size]
  omega

theorem list?_map {α : Type} {read : Json -> Option α} {write : α -> Json} {xs : List α}
    (h : ∀ x ∈ xs, read (write x) = some x) : list? read (arr (xs.map write)) = some xs := by
  change (xs.map write).mapM read = some xs
  induction xs with
  | nil => rfl
  | cons x xs ih =>
      obtain ⟨hx, hxs⟩ := List.forall_mem_cons.1 h
      rw [List.map_cons, List.mapM_cons, hx, ih hxs]
      rfl

@[simp] theorem texts?_ofTexts (xs : List String) : texts? (ofTexts xs) = some xs :=
  list?_map fun _ _ => rfl

section Optional

variable {ms : Members} {key : String}

theorem optional_str {o : Option String} (h : ms.lookup key = o.map str) :
    optional ms key text? = some o :=
  optional_eq h fun _ _ => ⟨rfl, Json.noConfusion⟩

theorem optional_word32 {o : Option UInt32} (h : ms.lookup key = o.map ofWord32) :
    optional ms key word32? = some o :=
  optional_eq h fun n _ => ⟨word32?_ofWord32 n, Json.noConfusion⟩

theorem optional_any {o : Option Json} (h : ms.lookup key = o) (hnull : ∀ v ∈ o, v ≠ null) :
    optional ms key any? = some o :=
  optional_eq (h.trans Option.map_id'.symm) fun v hv => ⟨rfl, hnull v hv⟩

end Optional

end Json

/-!
# Names
-/

@[simp] theorem namedInside?_taskKind (k : TaskKind) : namedInside? (ofName k) = some k := by
  cases k <;> rfl

@[simp] theorem namedInside?_method (m : Method) : namedInside? (ofName m) = some m := by
  cases m <;> rfl

@[simp] theorem namedInside?_fileType (t : FileType) : namedInside? (ofName t) = some t := by
  cases t <;> rfl

@[simp] theorem namedInside?_valueType (t : ValueType) : namedInside? (ofName t) = some t := by
  cases t <;> rfl

theorem Kind.ofNameOrNumber?_ofName (k : Kind) : Kind.ofNameOrNumber? (ofName k) = some k := by
  cases k <;> rfl

/-!
# Attributes
-/

namespace Attributes

theorem kept_ofHeaders (t : Table String) : (ofHeaders t).Kept := by
  apply kept_obj
  · exact List.pairwise_map.2 t.sorted
  · intro m hm
    obtain ⟨e, -, rfl⟩ := List.mem_map.1 hm
    exact kept_str e.2

@[simp] theorem headers?_ofHeaders (t : Table String) : headers? (ofHeaders t) = some t := by
  have hentries : ∀ es : List (String × String),
      (es.map fun e => (e.1, str e.2)).mapM (fun m => (text? m.2).map fun s => (m.1, s)) =
        some es := by
    intro es
    induction es with
    | nil => rfl
    | cons e rest ih =>
        rw [List.map_cons, List.mapM_cons, ih]
        rfl
  have htable : Table.ofList t.entries = t := by
    obtain ⟨entries, hsorted⟩ := t
    simp only [Table.ofList, sortEntries_eq_self hsorted]
  rw [headers?, ofHeaders, members?, Option.bind_eq_bind, Option.bind_some, hentries]
  exact congrArg some htable

namespace Task

theorem isRecord_members (a : Task) : IsRecord fields a.dataSchema.toList a.members := by
  simp only [members, List.append_assoc, List.cons_append, List.nil_append]
  exact .cons (kept_ofName _) <| .cons (kept_str _) <| .cons (kept_str _) <| .cons (kept_str _) <|
    .presentFree rfl <| .present (fun _ _ => kept_ofWord32 _) <| .present (fun _ _ => kept_str _) <|
    .present (fun _ _ => kept_str _) <| .cons (kept_ofTexts _) .nil

theorem ofMembers?_of_holds {a : Task} {ms : Members} (h : Holds ms fields a.members)
    (hfree : ∀ v ∈ a.dataSchema, v ≠ null) :
    ofMembers? ms = some a := by
  simp [Holds, fields, members, List.lookup_append, lookup_cons_pair, lookup_present] at h
  obtain ⟨hkind, hurl, hgoal, hextraction, hschema, hretries, hcomplete, hterminate, hkeys⟩ := h
  simp [ofMembers?, defaulted_eq hkind, defaulted_eq hurl, defaulted_eq hgoal,
    defaulted_eq hextraction, optional_any hschema hfree, optional_word32 hretries,
    optional_str hcomplete, optional_str hterminate, defaulted_eq hkeys]

end Task

namespace Loop

theorem isRecord_members (a : Loop) : IsRecord fields [] a.members :=
  .present (fun _ _ => kept_str _) <| .cons (kept_bool _) .nil

theorem ofMembers?_of_holds {a : Loop} {ms : Members} (h : Holds ms fields a.members) :
    ofMembers? ms = some a := by
  simp [Holds, fields, members, List.lookup_append, lookup_cons_pair, lookup_present] at h
  obtain ⟨hover, hempty⟩ := h
  simp [ofMembers?, optional_str hover, defaulted_eq hempty]

end Loop

namespace Code

theorem isRecord_members (a : Code) : IsRecord fields [] a.members :=
  .cons (kept_str _) <| .cons (kept_ofTexts _) .nil

theorem ofMembers?_of_holds {a : Code} {ms : Members} (h : Holds ms fields a.members) :
    ofMembers? ms = some a := by
  simp [Holds, fields, members, lookup_cons_pair] at h
  obtain ⟨hcode, hkeys⟩ := h
  simp [ofMembers?, defaulted_eq hcode, defaulted_eq hkeys]

end Code

namespace TextPrompt

theorem isRecord_members (a : TextPrompt) : IsRecord fields a.jsonSchema.toList a.members := by
  simp only [members, List.cons_append, List.nil_append]
  exact .cons (kept_str _) <| .presentFree rfl <| .cons (kept_ofTexts _) .nil

theorem ofMembers?_of_holds {a : TextPrompt} {ms : Members} (h : Holds ms fields a.members)
    (hfree : ∀ v ∈ a.jsonSchema, v ≠ null) :
    ofMembers? ms = some a := by
  simp [Holds, fields, members, List.lookup_append, lookup_cons_pair, lookup_present] at h
  obtain ⟨hprompt, hschema, hkeys⟩ := h
  simp [ofMembers?, defaulted_eq hprompt, optional_any hschema hfree, defaulted_eq hkeys]

end TextPrompt

namespace HttpRequest

theorem isRecord_members (a : HttpRequest) : IsRecord fields a.body.toList a.members := by
  simp only [members, List.cons_append, List.nil_append]
  exact .cons (kept_ofName _) <| .cons (kept_str _) <| .cons (kept_ofHeaders _) <|
    .presentFree rfl <| .cons (kept_ofWord32 _) <| .cons (kept_ofTexts _) .nil

theorem ofMembers?_of_holds {a : HttpRequest} {ms : Members} (h : Holds ms fields a.members)
    (hfree : ∀ v ∈ a.body, v ≠ null) :
    ofMembers? ms = some a := by
  simp [Holds, fields, members, List.lookup_append, lookup_cons_pair, lookup_present] at h
  obtain ⟨hmethod, hurl, hheaders, hbody, htimeout, hkeys⟩ := h
  simp [ofMembers?, defaulted_eq hmethod, defaulted_eq hurl, defaulted_eq hheaders,
    optional_any hbody hfree, defaulted_eq htimeout, defaulted_eq hkeys]

end HttpRequest

namespace Extraction

theorem isRecord_members (a : Extraction) : IsRecord fields a.dataSchema.toList a.members := by
  simp only [members, List.cons_append, List.nil_append]
  exact .cons (kept_str _) <| .cons (kept_str _) <| .presentFree rfl <| .cons (kept_ofTexts _) .nil

theorem ofMembers?_of_holds {a : Extraction} {ms : Members} (h : Holds ms fields a.members)
    (hfree : ∀ v ∈ a.dataSchema, v ≠ null) :
    ofMembers? ms = some a := by
  simp [Holds, fields, members, List.lookup_append, lookup_cons_pair, lookup_present] at h
  obtain ⟨hurl, hextraction, hschema, hkeys⟩ := h
  simp [ofMembers?, defaulted_eq hurl, defaulted_eq hextraction, optional_any hschema hfree,
    defaulted_eq hkeys]

end Extraction

namespace FileDownload

theorem isRecord_members (a : FileDownload) : IsRecord fields [] a.members := by
  simp only [members, List.cons_append, List.nil_append]
  exact .cons (kept_str _) <| .cons (kept_str _) <| .present (fun _ _ => kept_str _) <|
    .cons (kept_ofTexts _) .nil

theorem ofMembers?_of_holds {a : FileDownload} {ms : Members} (h : Holds ms fields a.members) :
    ofMembers? ms = some a := by
  simp [Holds, fields, members, List.lookup_append, lookup_cons_pair, lookup_present] at h
  obtain ⟨hurl, hgoal, hsuffix, hkeys⟩ := h
  simp [ofMembers?, defaulted_eq hurl, defaulted_eq hgoal, optional_str hsuffix,
    defaulted_eq hkeys]

end FileDownload

namespace Login

theorem isRecord_members (a : Login) : IsRecord fields [] a.members := by
  simp only [members, List.cons_append, List.nil_append]
  exact .cons (kept_str _) <| .cons (kept_str _) <| .present (fun _ _ => kept_str _) <|
    .cons (kept_ofTexts _) .nil

theorem ofMembers?_of_holds {a : Login} {ms : Members} (h : Holds ms fields a.members) :
    ofMembers? ms = some a := by
  simp [Holds, fields, members, List.lookup_append, lookup_cons_pair, lookup_present] at h
  obtain ⟨hurl, hgoal, htotp, hkeys⟩ := h
  simp [ofMembers?, defaulted_eq hurl, defaulted_eq hgoal, optional_str htotp, defaulted_eq hkeys]

end Login

namespace SendEmail

theorem isRecord_members (a : SendEmail) : IsRecord fields [] a.members :=
  .cons (kept_ofTexts _) <| .cons (kept_str _) <| .cons (kept_str _) <|
    .cons (kept_ofTexts _) .nil

theorem ofMembers?_of_holds {a : SendEmail} {ms : Members} (h : Holds ms fields a.members) :
    ofMembers? ms = some a := by
  simp [Holds, fields, members, lookup_cons_pair] at h
  obtain ⟨hrecipients, hsubject, hbody, hattachments⟩ := h
  simp [ofMembers?, defaulted_eq hrecipients, defaulted_eq hsubject, defaulted_eq hbody,
    defaulted_eq hattachments]

end SendEmail

namespace Wait

theorem isRecord_members (a : Wait) : IsRecord fields [] a.members :=
  .cons (kept_ofWord32 _) .nil

theorem ofMembers?_of_holds {a : Wait} {ms : Members} (h : Holds ms fields a.members) :
    ofMembers? ms = some a := by
  simp [Holds, fields, members, lookup_cons_pair] at h
  simp [ofMembers?, defaulted_eq h]

end Wait

namespace GotoUrl

theorem isRecord_members (a : GotoUrl) : IsRecord fields [] a.members :=
  .cons (kept_str _) .nil

theorem ofMembers?_of_holds {a : GotoUrl} {ms : Members} (h : Holds ms fields a.members) :
    ofMembers? ms = some a := by
  simp [Holds, fields, members, lookup_cons_pair] at h
  simp [ofMembers?, defaulted_eq h]

end GotoUrl

namespace PdfParser

theorem isRecord_members (a : PdfParser) : IsRecord fields a.jsonSchema.toList a.members := by
  simp only [members, List.cons_append, List.nil_append]
  exact .cons (kept_str _) <| .presentFree_last rfl

theorem ofMembers?_of_holds {a : PdfParser} {ms : Members} (h : Holds ms fields a.members)
    (hfree : ∀ v ∈ a.jsonSchema, v ≠ null) :
    ofMembers? ms = some a := by
  simp [Holds, fields, members, lookup_cons_pair, lookup_present] at h
  obtain ⟨hfile, hschema⟩ := h
  simp [ofMembers?, defaulted_eq hfile, optional_any hschema hfree]

end PdfParser

namespace FileParser

theorem isRecord_members (a : FileParser) : IsRecord fields [] a.members :=
  .cons (kept_str _) <| .cons (kept_ofName _) .nil

theorem ofMembers?_of_holds {a : FileParser} {ms : Members} (h : Holds ms fields a.members) :
    ofMembers? ms = some a := by
  simp [Holds, fields, members, lookup_cons_pair] at h
  obtain ⟨hfile, htype⟩ := h
  simp [ofMembers?, defaulted_eq hfile, defaulted_eq htype]

end FileParser

namespace Validation

theorem isRecord_members (a : Validation) : IsRecord fields [] a.members :=
  .cons (kept_str _) <| .cons (kept_str _) <| .cons (kept_ofTexts _) .nil

theorem ofMembers?_of_holds {a : Validation} {ms : Members} (h : Holds ms fields a.members) :
    ofMembers? ms = some a := by
  simp [Holds, fields, members, lookup_cons_pair] at h
  obtain ⟨hcomplete, hterminate, hkeys⟩ := h
  simp [ofMembers?, defaulted_eq hcomplete, defaulted_eq hterminate, defaulted_eq hkeys]

end Validation

end Attributes

/-!
# Headings and branches
-/

namespace Heading

def fields : List String :=
  ["label", "continue_on_failure", "model"]

theorem isRecord_members (h : Heading) : IsRecord fields [] h.members := by
  simp only [members, List.cons_append, List.nil_append]
  exact .cons (kept_str _) <| .cons (kept_bool _) <| .present_last fun _ _ => kept_str _

theorem ofMembers?_of_holds {h : Heading} {ms : Members} (hh : Holds ms fields h.members) :
    ofMembers? ms = some h := by
  simp [Holds, fields, members, lookup_cons_pair, lookup_present] at hh
  obtain ⟨hlabel, hcontinue, hmodel⟩ := hh
  simp [ofMembers?, required_eq hlabel, defaulted_eq hcontinue, optional_str hmodel]

end Heading

namespace Branch

theorem isRecord_members (b : Branch) : IsRecord fields [] b.members := by
  simp only [members, List.append_assoc, List.cons_append, List.nil_append]
  exact .cons (kept_str _) <| .cons (kept_str _) <| .present (fun _ _ => kept_str _) <|
    .present (fun _ _ => kept_str _) <| .cons (kept_bool _) .nil

theorem ofMembers?_of_holds {b : Branch} {ms : Members} (h : Holds ms fields b.members) :
    ofMembers? ms = some b := by
  simp [Holds, fields, members, List.lookup_append, lookup_cons_pair, lookup_present] at h
  obtain ⟨hid, hlabel, hexpression, hmerge, hdefault⟩ := h
  simp [ofMembers?, required_eq hid, required_eq hlabel, optional_str hexpression,
    optional_str hmerge, defaulted_eq hdefault]

end Branch

/-!
# Free values

The optional fields without a shape of their own hold any value but null, which stands for none.
-/

namespace Json

/-- A value that stands in an optional field without a shape of its own. -/
structure Storable (v : Json) : Prop extends v.Kept where
  notNull : v ≠ null

end Json

/-- The values of the attributes to which a document gives no shape. -/
def Leaf.freeValues : Leaf -> List Json
  | task a => a.dataSchema.toList
  | textPrompt a => a.jsonSchema.toList
  | httpRequest a => a.body.toList
  | extraction a => a.dataSchema.toList
  | pdfParser a => a.jsonSchema.toList
  | _ => []

def Parameter.freeValues (p : Parameter) : List Json :=
  match p.source with
  | .workflow _ defaultValue => defaultValue.toList
  | _ => []

/-!
# Leaves
-/

namespace Leaf

open Attributes

/-- The attributes of a leaf are a record beside its heading and its kind. -/
theorem exists_fields (l : Leaf) : ∃ fields,
    (Heading.fields ++ "block_type" :: fields).Nodup ∧ IsRecord fields l.freeValues l.members ∧
      ((∀ v ∈ l.freeValues, v ≠ null) ->
        ∀ ms, Holds ms fields l.members -> ofContent? l.kind (obj ms) = some l) := by
  have hnull : ∀ {o : Option Json}, o.toList = l.freeValues -> (∀ v ∈ l.freeValues, v ≠ null) ->
      ∀ v ∈ o, v ≠ null := fun ho h v hv => h v (ho ▸ Option.mem_toList.2 hv)
  cases l with
  | task a =>
      exact ⟨Task.fields, by decide, a.isRecord_members, fun h ms hms =>
        congrArg (Option.map task) (Task.ofMembers?_of_holds hms (hnull rfl h))⟩
  | code a =>
      exact ⟨Code.fields, by decide, a.isRecord_members, fun _ ms hms =>
        congrArg (Option.map code) (Code.ofMembers?_of_holds hms)⟩
  | textPrompt a =>
      exact ⟨TextPrompt.fields, by decide, a.isRecord_members, fun h ms hms =>
        congrArg (Option.map textPrompt) (TextPrompt.ofMembers?_of_holds hms (hnull rfl h))⟩
  | httpRequest a =>
      exact ⟨HttpRequest.fields, by decide, a.isRecord_members, fun h ms hms =>
        congrArg (Option.map httpRequest) (HttpRequest.ofMembers?_of_holds hms (hnull rfl h))⟩
  | extraction a =>
      exact ⟨Extraction.fields, by decide, a.isRecord_members, fun h ms hms =>
        congrArg (Option.map extraction) (Extraction.ofMembers?_of_holds hms (hnull rfl h))⟩
  | fileDownload a =>
      exact ⟨FileDownload.fields, by decide, a.isRecord_members, fun _ ms hms =>
        congrArg (Option.map fileDownload) (FileDownload.ofMembers?_of_holds hms)⟩
  | login a =>
      exact ⟨Login.fields, by decide, a.isRecord_members, fun _ ms hms =>
        congrArg (Option.map login) (Login.ofMembers?_of_holds hms)⟩
  | sendEmail a =>
      exact ⟨SendEmail.fields, by decide, a.isRecord_members, fun _ ms hms =>
        congrArg (Option.map sendEmail) (SendEmail.ofMembers?_of_holds hms)⟩
  | wait a =>
      exact ⟨Wait.fields, by decide, a.isRecord_members, fun _ ms hms =>
        congrArg (Option.map wait) (Wait.ofMembers?_of_holds hms)⟩
  | gotoUrl a =>
      exact ⟨GotoUrl.fields, by decide, a.isRecord_members, fun _ ms hms =>
        congrArg (Option.map gotoUrl) (GotoUrl.ofMembers?_of_holds hms)⟩
  | pdfParser a =>
      exact ⟨PdfParser.fields, by decide, a.isRecord_members, fun h ms hms =>
        congrArg (Option.map pdfParser) (PdfParser.ofMembers?_of_holds hms (hnull rfl h))⟩
  | fileParser a =>
      exact ⟨FileParser.fields, by decide, a.isRecord_members, fun _ ms hms =>
        congrArg (Option.map fileParser) (FileParser.ofMembers?_of_holds hms)⟩
  | validation a =>
      exact ⟨Validation.fields, by decide, a.isRecord_members, fun _ ms hms =>
        congrArg (Option.map validation) (Validation.ofMembers?_of_holds hms)⟩

end Leaf

/-!
# Parameters
-/

namespace Parameter

/-- The fields of every parameter, whatever its type. -/
def commonFields : List String :=
  ["parameter_type", "key", "description"]

def commonMembers (p : Parameter) : Members :=
  [("parameter_type", str (typeName p.source)), ("key", str p.key)] ++
    present "description" str p.description

def members (p : Parameter) : Members :=
  p.commonMembers ++ sourceMembers p.source

theorem isRecord_commonMembers (p : Parameter) (free : List Json) :
    IsRecord commonFields free p.commonMembers := by
  simp only [commonMembers, List.cons_append, List.nil_append]
  exact .cons (kept_str _) <| .cons (kept_str _) <| .present_last fun _ _ => kept_str _

/-- The fields of the source of a parameter come after those of every parameter. -/
theorem exists_fields (p : Parameter) : ∃ fields,
    fields? (typeName p.source) = some ("key" :: "description" :: fields) ∧
      (commonFields ++ fields).Nodup ∧ IsRecord fields p.freeValues (sourceMembers p.source) ∧
        ((∀ v ∈ p.freeValues, v ≠ null) -> ∀ ms, Holds ms fields (sourceMembers p.source) ->
          source? (typeName p.source) ms = some p.source) := by
  obtain ⟨key, description, source⟩ := p
  cases source with
  | workflow valueType defaultValue =>
      refine ⟨_, rfl, by decide, .cons (kept_ofName _) <| .presentFree_last rfl, fun h ms hms => ?_⟩
      simp [Holds, sourceMembers, lookup_cons_pair, lookup_present] at hms
      obtain ⟨hvalueType, hdefault⟩ := hms
      simp [source?, typeName, required_eq hvalueType,
        optional_any hdefault fun v hv => h v (Option.mem_toList.2 hv)]
  | credential credentialId =>
      refine ⟨_, rfl, by decide, .cons (kept_str _) .nil, fun _ ms hms => ?_⟩
      have hcredential := hms "credential_id" List.mem_cons_self
      simp [source?, typeName, required_eq hcredential]
  | context sourceKey =>
      refine ⟨_, rfl, by decide, .cons (kept_str _) .nil, fun _ ms hms => ?_⟩
      have hsource := hms "source_parameter_key" List.mem_cons_self
      simp [source?, typeName, required_eq hsource]
  | vaultLogin collectionId itemId urlKey =>
      refine ⟨_, rfl, by decide, ?_, fun _ ms hms => ?_⟩
      · simp only [sourceMembers, List.append_assoc]
        exact .present (fun _ _ => kept_str _) <| .present (fun _ _ => kept_str _) <|
          .present_last fun _ _ => kept_str _
      · simp [Holds, sourceMembers, List.lookup_append, lookup_present] at hms
        obtain ⟨hcollection, hitem, hurl⟩ := hms
        simp [source?, typeName, optional_str hcollection, optional_str hitem, optional_str hurl]
  | awsSecret awsKey =>
      refine ⟨_, rfl, by decide, .cons (kept_str _) .nil, fun _ ms hms => ?_⟩
      have hsecret := hms "aws_key" List.mem_cons_self
      simp [source?, typeName, required_eq hsecret]

theorem exact_toJson {p : Parameter} (h : ∀ v ∈ p.freeValues, v.Exact) : p.toJson.Exact := by
  obtain ⟨fields, -, -, hsource, -⟩ := p.exists_fields
  exact exactMembers_iff.2 (((p.isRecord_commonMembers _).append hsource).exact h)

theorem ofJson?_form (f : Arrangement) {p : Parameter}
    (h : ∀ v ∈ p.freeValues, v ≠ null ∧ f.form v = v) : ofJson? (f.form p.toJson) = some p := by
  obtain ⟨fields, hfields, hdistinct, hrecord, hread⟩ := p.exists_fields
  have hcommon := p.isRecord_commonMembers p.freeValues
  have hform := fun v hv => (h v hv).2
  have hkeys : (p.members.map Prod.fst).Nodup := hdistinct.sublist (hcommon.append hrecord).keys
  have hholds : Holds p.members commonFields p.commonMembers :=
    fun k hk => lookup_append_left hrecord.keys hdistinct hk
  have hsource : Holds p.members fields (sourceMembers p.source) :=
    fun k hk => lookup_append_right hcommon.keys hdistinct hk
  have hms := hholds.arranged f hkeys (hcommon.form_eq f hform)
  simp [Holds, commonFields, commonMembers, lookup_cons_pair, lookup_present] at hms
  obtain ⟨htype, hkey, hdescription⟩ := hms
  have hcontent := hread (fun v hv => (h v hv).1) _
    (hsource.arranged f hkeys (hrecord.form_eq f hform))
  rw [toJson, f.form_obj]
  change ofJson? (obj (f.members p.members)) = _
  simp [ofJson?, tagged?, htype, hfields, record?, recordWith?, required_eq hkey,
    optional_str hdescription, hcontent]

end Parameter

end Workflow
