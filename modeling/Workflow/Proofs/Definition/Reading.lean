import Workflow.Proofs.Definition.Document
import Workflow.Proofs.Store.Saved

/-!
# Definitions that were read

Whatever is read from a document, each of its free values stands in the document and is not null.
So every definition that was read is read again from what it is written as.
-/

namespace Workflow

open Json

namespace Json

/-!
# Values in a document
-/

/-- A value that stands somewhere in a document. -/
inductive Within (root : Json) : Json -> Prop where
  | root : Within root root
  | item {items : List Json} {v : Json} : Within root (arr items) -> v ∈ items -> Within root v
  | member {ms : Members} {m : String × Json} :
      Within root (obj ms) -> m ∈ ms -> Within root m.2

theorem Within.canonical_eq {root v : Json} (h : Within root v)
    (hroot : root.canonical = root) : v.canonical = v := by
  induction h with
  | root => exact hroot
  | @item items v _ hv ih =>
      rw [canonical, canonicalItems_eq_map] at ih
      exact List.map_inj_left.1 ((arr.inj ih).trans items.map_id.symm) v hv
  | @member ms m _ hm ih =>
      rw [canonical_obj] at ih
      have hsorted : sortedMembers ms = ms := obj.inj ih
      rw [← hsorted] at hm
      exact canonical_of_mem_canonicalMembers (mem_of_mem_sortEntries hm)

/-- A value that stands in a document and is not null. -/
structure Given (root v : Json) : Prop where
  notNull : v ≠ null
  within : Within root v

/-- The items or members of a value stand in the document. -/
def Inside (root : Json) : Json -> Prop
  | arr items => ∀ v ∈ items, Within root v
  | obj ms => ∀ m ∈ ms, Within root m.2
  | _ => True

section Reading

variable {α : Type} {root v : Json} {ms : Members} {key : String}

theorem Within.inside (h : Within root v) : Inside root v := by
  cases v with
  | arr items => exact fun _ hw => h.item hw
  | obj ms => exact fun _ hm => h.member hm
  | _ => trivial

theorem within_of_record? {fields : List String} (hv : Inside root v)
    (h : record? fields v = some ms) : ∀ m ∈ ms, Within root m.2 := by
  cases v with
  | arr items =>
      obtain ⟨-, hzip⟩ := Option.ite_none_right_eq_some.1 h
      cases hzip
      exact fun m hm => hv m.2 (List.of_mem_zip hm).2
  | obj ms =>
      cases h
      exact hv
  | _ => cases h

theorem inside_of_tagged? {tag : String} {read : Json -> Option α} {a : α} {content : Json}
    (hv : Inside root v) (h : tagged? tag read v = some (a, content)) : Inside root content := by
  cases v with
  | arr items =>
      cases items with
      | nil => cases h
      | cons v rest =>
          obtain ⟨a, -, heq⟩ := Option.map_eq_some_iff.1 h
          cases heq
          exact fun w hw => hv w (List.mem_cons_of_mem v hw)
  | obj ms =>
      obtain ⟨a, -, heq⟩ := Option.map_eq_some_iff.1 h
      cases heq
      exact hv
  | _ => cases h

theorem given_of_optional (hms : ∀ m ∈ ms, Within root m.2) {o : Option Json}
    (h : optional ms key any? = some o) : ∀ v ∈ o.toList, Given root v := by
  intro v hv
  unfold optional at h
  split at h
  · cases h
    cases hv
  · cases h
    cases hv
  · next w hnull hlookup =>
      cases h
      cases List.mem_singleton.1 hv
      refine ⟨?_, hms _ (mem_of_lookup hlookup)⟩
      rintro rfl
      exact hnull rfl

theorem eq_or_exists_of_defaulted {read : Json -> Option α} {value a : α}
    (h : defaulted ms key value read = some a) :
    a = value ∨ ∃ v, (key, v) ∈ ms ∧ read v = some a := by
  unfold defaulted at h
  split at h
  · exact Or.inl (Option.some.inj h).symm
  · next v hlookup => exact Or.inr ⟨v, mem_of_lookup hlookup, h⟩

theorem exists_of_mem_list? {read : Json -> Option α} {xs : List α} (hv : Inside root v)
    (h : list? read v = some xs) : ∀ x ∈ xs, ∃ w, Within root w ∧ read w = some x := by
  cases v with
  | arr items =>
      change items.mapM read = some xs at h
      induction items generalizing xs with
      | nil =>
          cases h
          exact List.forall_mem_nil _
      | cons w rest ih =>
          obtain ⟨hw, hrest⟩ := List.forall_mem_cons.1 hv
          simp only [List.mapM_cons, Option.bind_eq_bind, Option.bind_eq_some_iff] at h
          obtain ⟨x, hx, ys, hys, heq⟩ := h
          cases heq
          exact List.forall_mem_cons.2 ⟨⟨w, hw, hx⟩, ih hrest hys⟩
  | _ => cases h

end Reading

end Json

/-!
# Leaves and parameters
-/

namespace Attributes

variable {ms : Members}

theorem Task.optional_dataSchema {a : Task} (h : ofMembers? ms = some a) :
    optional ms "data_schema" any? = some a.dataSchema := by
  simp only [ofMembers?, Option.bind_eq_bind, Option.bind_eq_some_iff] at h
  obtain ⟨_, -, _, -, _, -, _, -, schema, hschema, _, -, _, -, _, -, _, -, heq⟩ := h
  cases heq
  exact hschema

theorem TextPrompt.optional_jsonSchema {a : TextPrompt} (h : ofMembers? ms = some a) :
    optional ms "json_schema" any? = some a.jsonSchema := by
  simp only [ofMembers?, Option.bind_eq_bind, Option.bind_eq_some_iff] at h
  obtain ⟨_, -, schema, hschema, _, -, heq⟩ := h
  cases heq
  exact hschema

theorem HttpRequest.optional_body {a : HttpRequest} (h : ofMembers? ms = some a) :
    optional ms "body" any? = some a.body := by
  simp only [ofMembers?, Option.bind_eq_bind, Option.bind_eq_some_iff] at h
  obtain ⟨_, -, _, -, _, -, body, hbody, _, -, _, -, heq⟩ := h
  cases heq
  exact hbody

theorem Extraction.optional_dataSchema {a : Extraction} (h : ofMembers? ms = some a) :
    optional ms "data_schema" any? = some a.dataSchema := by
  simp only [ofMembers?, Option.bind_eq_bind, Option.bind_eq_some_iff] at h
  obtain ⟨_, -, _, -, schema, hschema, _, -, heq⟩ := h
  cases heq
  exact hschema

theorem PdfParser.optional_jsonSchema {a : PdfParser} (h : ofMembers? ms = some a) :
    optional ms "json_schema" any? = some a.jsonSchema := by
  simp only [ofMembers?, Option.bind_eq_bind, Option.bind_eq_some_iff] at h
  obtain ⟨_, -, schema, hschema, heq⟩ := h
  cases heq
  exact hschema

end Attributes

theorem Leaf.given_of_ofContent? {root : Json} {ms : Members} {kind : Kind} {l : Leaf}
    (hms : ∀ m ∈ ms, Within root m.2) (h : ofContent? kind (obj ms) = some l) :
    ∀ v ∈ l.freeValues, Given root v := by
  cases kind with
  | loop => cases h
  | conditional => cases h
  | task =>
      obtain ⟨a, ha, rfl⟩ := Option.map_eq_some_iff.1 h
      exact given_of_optional hms (Attributes.Task.optional_dataSchema ha)
  | textPrompt =>
      obtain ⟨a, ha, rfl⟩ := Option.map_eq_some_iff.1 h
      exact given_of_optional hms (Attributes.TextPrompt.optional_jsonSchema ha)
  | httpRequest =>
      obtain ⟨a, ha, rfl⟩ := Option.map_eq_some_iff.1 h
      exact given_of_optional hms (Attributes.HttpRequest.optional_body ha)
  | extraction =>
      obtain ⟨a, ha, rfl⟩ := Option.map_eq_some_iff.1 h
      exact given_of_optional hms (Attributes.Extraction.optional_dataSchema ha)
  | pdfParser =>
      obtain ⟨a, ha, rfl⟩ := Option.map_eq_some_iff.1 h
      exact given_of_optional hms (Attributes.PdfParser.optional_jsonSchema ha)
  -- The other kinds have no free values.
  | _ =>
      obtain ⟨a, -, rfl⟩ := Option.map_eq_some_iff.1 h
      exact List.forall_mem_nil _

namespace Parameter

theorem optional_defaultValue {ms : Members} {name : String} {t : ValueType} {value : Option Json}
    (h : source? name ms = some (.workflow t value)) :
    optional ms "default_value" any? = some value := by
  unfold source? at h
  split_ifs at h
  · simp only [Option.bind_eq_bind, Option.bind_eq_some_iff] at h
    obtain ⟨_, -, value, hvalue, heq⟩ := h
    cases heq
    exact hvalue
  -- The other types have sources of their own.
  all_goals simp [Option.bind_eq_some_iff] at h

theorem given_of_source? {root : Json} {ms : Members} {name : String} {p : Parameter}
    (hms : ∀ m ∈ ms, Within root m.2) (h : source? name ms = some p.source) :
    ∀ v ∈ p.freeValues, Given root v := by
  obtain ⟨key, description, source⟩ := p
  cases source with
  | workflow t value => exact given_of_optional hms (optional_defaultValue h)
  | _ => exact List.forall_mem_nil _

theorem given_of_ofJson? {root v : Json} {p : Parameter} (hv : Within root v)
    (h : ofJson? v = some p) : ∀ w ∈ p.freeValues, Given root w := by
  simp only [ofJson?, Option.bind_eq_bind, Option.bind_eq_some_iff] at h
  obtain ⟨⟨name, content⟩, htagged, _, -, ms, hrecord, _, -, _, -, source, hsource, heq⟩ := h
  have hms := within_of_record? (inside_of_tagged? hv.inside htagged) hrecord
  cases heq
  exact given_of_source? hms hsource

end Parameter

/-!
# Blocks
-/

namespace Descriptor

/-- What a block is read from: the attributes of a leaf, or the body of a container. -/
theorem exists_of_ofJson? {ms : Members} {x : Descriptor} (h : ofJson? (obj ms) = some x) :
    ∃ heading, (∃ kind l, Leaf.ofContent? kind (obj ms) = some l ∧ x = leaf heading l) ∨
      (∃ a children, childrenOf? ms = some children ∧ x = loop heading a children) ∨
        ∃ branches, branchesOf? ms = some branches ∧ x = conditional heading branches := by
  simp only [ofJson?, Option.bind_eq_bind, Option.bind_eq_some_iff] at h
  obtain ⟨heading, -, kind, -, h⟩ := h
  refine ⟨heading, ?_⟩
  split at h
  · obtain ⟨a, -, h⟩ := Option.bind_eq_some_iff.1 h
    obtain ⟨children, hchildren, heq⟩ := Option.bind_eq_some_iff.1 h
    exact Or.inr (Or.inl ⟨a, children, hchildren, (Option.some.inj heq).symm⟩)
  · obtain ⟨branches, hbranches, heq⟩ := Option.map_eq_some_iff.1 h
    exact Or.inr (Or.inr ⟨branches, hbranches, heq.symm⟩)
  · obtain ⟨l, hl, heq⟩ := Option.map_eq_some_iff.1 h
    exact Or.inl ⟨kind, l, hl, heq.symm⟩

section Nesting

variable {root : Json}

mutual

theorem given_of_ofJson? : ∀ {v : Json} {x : Descriptor}, Within root v -> ofJson? v = some x ->
    EachFree (Given root) x.inOrder
  | obj ms, _, hv, h => by
      have hms : ∀ m ∈ ms, Within root m.2 := fun _ hm => hv.member hm
      obtain ⟨heading, ⟨kind, l, hl, rfl⟩ | ⟨a, children, hchildren, rfl⟩ |
        ⟨branches, hbranches, rfl⟩⟩ := exists_of_ofJson? h
      · exact List.forall_mem_singleton.2 (Leaf.given_of_ofContent? hms hl)
      · exact List.forall_mem_cons.2
          ⟨List.forall_mem_nil _, given_of_childrenOf? hms hchildren⟩
      · exact List.forall_mem_cons.2
          ⟨List.forall_mem_nil _, given_of_branchesOf? hms hbranches⟩

theorem given_of_childrenOf? : ∀ {ms : Members} {xs : List Descriptor},
    (∀ m ∈ ms, Within root m.2) -> childrenOf? ms = some xs ->
      EachFree (Given root) (listInOrder xs)
  | [], _, _, h => by
      cases h
      exact List.forall_mem_nil _
  | (_, _) :: _, _, hms, h => by
      rw [childrenOf?] at h
      split at h
      · exact given_of_listOf? (hms _ List.mem_cons_self) h
      · exact given_of_childrenOf? (fun m hm => hms m (List.mem_cons_of_mem _ hm)) h

theorem given_of_listOf? : ∀ {v : Json} {xs : List Descriptor}, Within root v ->
    listOf? v = some xs -> EachFree (Given root) (listInOrder xs)
  | arr _, _, hv, h => given_of_itemsOf? (fun _ hw => hv.item hw) h

theorem given_of_itemsOf? : ∀ {items : List Json} {xs : List Descriptor},
    (∀ v ∈ items, Within root v) -> itemsOf? items = some xs ->
      EachFree (Given root) (listInOrder xs)
  | [], _, _, h => by
      cases h
      exact List.forall_mem_nil _
  | _ :: _, _, hitems, h => by
      simp only [itemsOf?, Option.bind_eq_bind, Option.bind_eq_some_iff] at h
      obtain ⟨x, hx, rest, hrest, heq⟩ := h
      cases heq
      exact List.forall_mem_append.2
        ⟨given_of_ofJson? (hitems _ List.mem_cons_self) hx,
          given_of_itemsOf? (fun v hv => hitems v (List.mem_cons_of_mem _ hv)) hrest⟩

theorem given_of_branchesOf? : ∀ {ms : Members} {branches : List (Branch × List Descriptor)},
    (∀ m ∈ ms, Within root m.2) -> branchesOf? ms = some branches ->
      EachFree (Given root) (branchesInOrder branches)
  | (_, _) :: _, _, hms, h => by
      rw [branchesOf?] at h
      split at h
      · exact given_of_branchListOf? (hms _ List.mem_cons_self) h
      · exact given_of_branchesOf? (fun m hm => hms m (List.mem_cons_of_mem _ hm)) h

theorem given_of_branchListOf? : ∀ {v : Json} {branches : List (Branch × List Descriptor)},
    Within root v -> branchListOf? v = some branches ->
      EachFree (Given root) (branchesInOrder branches)
  | arr _, _, hv, h => given_of_branchItemsOf? (fun _ hw => hv.item hw) h

theorem given_of_branchItemsOf? : ∀ {items : List Json}
    {branches : List (Branch × List Descriptor)}, (∀ v ∈ items, Within root v) ->
      branchItemsOf? items = some branches -> EachFree (Given root) (branchesInOrder branches)
  | [], _, _, h => by
      cases h
      exact List.forall_mem_nil _
  | _ :: _, _, hitems, h => by
      simp only [branchItemsOf?, Option.bind_eq_bind, Option.bind_eq_some_iff] at h
      obtain ⟨b, hb, rest, hrest, heq⟩ := h
      cases heq
      exact List.forall_mem_append.2
        ⟨given_of_branchOf? (hitems _ List.mem_cons_self) hb,
          given_of_branchItemsOf? (fun v hv => hitems v (List.mem_cons_of_mem _ hv)) hrest⟩

theorem given_of_branchOf? : ∀ {v : Json} {b : Branch × List Descriptor}, Within root v ->
    branchOf? v = some b -> EachFree (Given root) (listInOrder b.2)
  | obj ms, _, hv, h => by
      simp only [branchOf?, Option.bind_eq_bind, Option.bind_eq_some_iff] at h
      obtain ⟨branch, -, children, hchildren, heq⟩ := h
      cases heq
      exact given_of_childrenOf? (fun _ hm => hv.member hm) hchildren

end

end Nesting

end Descriptor

/-!
# Documents
-/

namespace Definition

theorem given_of_ofJson? {v : Json} {d : Definition} (h : ofJson? v = some d) :
    ∀ w ∈ d.freeValues, Given v w := by
  simp only [ofJson?, Option.bind_eq_bind, Option.bind_eq_some_iff] at h
  obtain ⟨ms, hrecord, _, -, _, -, parameters, hparameters, blocks, hblocks, heq⟩ := h
  have hms := within_of_record? Within.root.inside hrecord
  cases heq
  refine List.forall_mem_append.2 ⟨List.forall_mem_flatMap.2 fun p hp => ?_,
    List.forall_mem_flatMap.2 ?_⟩
  · rcases eq_or_exists_of_defaulted hparameters with rfl | ⟨w, hw, hlist⟩
    · cases hp
    · obtain ⟨u, hu, hread⟩ := exists_of_mem_list? (hms _ hw).inside hlist p hp
      exact Parameter.given_of_ofJson? hu hread
  · rcases eq_or_exists_of_defaulted hblocks with rfl | ⟨w, hw, hlist⟩
    · exact List.forall_mem_nil _
    · exact Descriptor.given_of_listOf? (hms _ hw) hlist

theorem null_not_mem_of_ofJson? {v : Json} {d : Definition} (h : ofJson? v = some d) :
    null ∉ d.freeValues :=
  fun hnull => (given_of_ofJson? h null hnull).notNull rfl

theorem canonical_of_ofJson? {v : Json} {d : Definition} (hv : v.canonical = v)
    (h : ofJson? v = some d) : ∀ w ∈ d.freeValues, w.canonical = w :=
  fun w hw => (given_of_ofJson? h w hw).within.canonical_eq hv

theorem ofJson?_toJson {d : Definition} (h : null ∉ d.freeValues) :
    ofJson? d.toJson = some d :=
  ofJson?_form .written fun _ hv => ⟨ne_of_mem_of_not_mem hv h, rfl⟩

theorem ofJson?_canonical {d : Definition} (h : null ∉ d.freeValues)
    (hcanonical : ∀ v ∈ d.freeValues, v.canonical = v) : ofJson? d.toJson.canonical = some d :=
  ofJson?_form .sorted fun v hv => ⟨ne_of_mem_of_not_mem hv h, hcanonical v hv⟩

theorem exists_of_load? {text : String} {d : Definition} (h : load? text = .ok d) :
    ∃ v version w n, version? v = some (UInt32.toNat version) ∧ upgrade v version = .ok (w, n) ∧
      ofJson? w = some d := by
  unfold load? at h
  split at h
  · cases h
  · next v hv =>
      unfold ofDocument? at h
      split at h
      · cases h
      · next version hversion =>
          split at h
          · cases h
          · next hsize =>
              split at h
              · cases h
              · next w n hupgrade =>
                  split at h
                  · cases h
                  · next hread =>
                      cases h
                      refine ⟨v, UInt32.ofNat version, w, n, ?_, hupgrade, hread⟩
                      rwa [UInt32.toNat_ofNat_of_lt' (Nat.lt_of_not_le hsize)]

/-- A definition is read again from what it is written as unless one of its free values is null,
and from the sorted form of it if their members are sorted too.  None of the free values of a
definition that was read or loaded is null. -/
theorem ofJson?_toJson_iff (d : Definition) :
    (ofJson? d.toJson = some d <-> null ∉ d.freeValues) ∧
    (ofJson? d.toJson.canonical = some d <->
      null ∉ d.freeValues ∧ ∀ v ∈ d.freeValues, v.canonical = v) ∧
    (∀ v, ofJson? v = some d -> null ∉ d.freeValues ∧ ofJson? d.toJson = some d) ∧
    (∀ v, v.canonical = v -> ofJson? v = some d -> ofJson? d.toJson.canonical = some d) ∧
    ∀ text, load? text = .ok d -> null ∉ d.freeValues ∧ ofJson? d.toJson = some d := by
  have hread : ∀ v, ofJson? v = some d -> null ∉ d.freeValues ∧ ofJson? d.toJson = some d :=
    fun v hv => ⟨null_not_mem_of_ofJson? hv, ofJson?_toJson (null_not_mem_of_ofJson? hv)⟩
  refine ⟨⟨null_not_mem_of_ofJson?, ofJson?_toJson⟩, ⟨fun h => ?_, fun h => ?_⟩, hread,
    fun v hv h => ?_, fun text h => ?_⟩
  · exact ⟨null_not_mem_of_ofJson? h, canonical_of_ofJson? (canonical_canonical d.toJson) h⟩
  · exact ofJson?_canonical h.1 h.2
  · exact ofJson?_canonical (null_not_mem_of_ofJson? h) (canonical_of_ofJson? hv h)
  · obtain ⟨-, -, v, -, -, -, hv⟩ := exists_of_load? h
    exact hread v hv

theorem ofJson?_toJson_iff_charges : null ∉ charges.freeValues ∧
    ofJson? charges.toJson = some charges ∧ ofJson? charges.toJson.canonical = some charges ∧
      load? charges.text = .ok charges := by
  have hnull : null ∉ charges.freeValues := fun h => (storable_charges null h).notNull rfl
  have hdepth : charges.toJson.depth <= maxDepth := by decide +kernel
  have hload : load? charges.text = .ok charges := by
    rw [load?_text rfl storable_charges, if_pos hdepth]
  obtain ⟨hwritten, hsorted, hread, hcanonical, hloaded⟩ := ofJson?_toJson_iff charges
  have hform := hsorted.2 ⟨hnull, fun v hv => (storable_charges v hv).canonical⟩
  exact ⟨(hread charges.toJson (hwritten.2 hnull)).1, (hloaded charges.text hload).2,
    hcanonical _ (canonical_canonical charges.toJson) hform, hload⟩

end Definition

end Workflow
