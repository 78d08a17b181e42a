import Workflow.Proofs.Definition.Records

/-!
# Definitions in JSON

A definition is read again from the JSON it is written as, also when the members of every object
have been sorted.  The induction is over the nesting of the blocks: of each block the heading, the
kind, the attributes and the body are looked up by key.
-/

namespace Workflow

open Json

def Descriptor.freeValues : Descriptor -> List Json
  | leaf _ l => l.freeValues
  | _ => []

/-!
# Blocks in an object
-/

/-- The members of a block: its heading, its kind and what belongs to the kind. -/
def Heading.described (h : Heading) (kind : Kind) (content : Members) : Members :=
  h.members ++ ("block_type", ofName kind) :: content

section Described

variable {fields : List String} {content : Members}
  (hcontent : (content.map Prod.fst).Sublist fields)
  (hdistinct : (Heading.fields ++ "block_type" :: fields).Nodup) (h : Heading) (kind : Kind)
  (f : Arrangement)

include hcontent

theorem Heading.keys_described : ((h.described kind content).map Prod.fst).Sublist
    (Heading.fields ++ "block_type" :: fields) := by
  rw [described, List.map_append]
  exact h.isRecord_members.keys.append (hcontent.cons_cons "block_type")

include hdistinct

theorem Heading.ofMembers?_described :
    ofMembers? (f.members (h.described kind content)) = some h := by
  have htail : ((("block_type", ofName kind) :: content).map Prod.fst).Sublist
      ("block_type" :: fields) := hcontent.cons_cons "block_type"
  have hholds : Holds (h.described kind content) Heading.fields h.members :=
    fun k hk => lookup_append_left htail hdistinct hk
  have hkeys := hdistinct.sublist (Heading.keys_described hcontent h kind)
  have hform := h.isRecord_members.form_eq f (List.forall_mem_nil _)
  exact ofMembers?_of_holds (hholds.arranged f hkeys hform)

theorem Kind.required_described :
    required (f.members (h.described kind content)) "block_type" Kind.ofNameOrNumber? =
      some kind := by
  have hkeys := hdistinct.sublist (Heading.keys_described hcontent h kind)
  have hlookup : (f.members (h.described kind content)).lookup "block_type" =
      some (ofName kind) := by
    rw [f.lookup_members hkeys, Heading.described, lookup_append_right
      h.isRecord_members.keys hdistinct List.mem_cons_self, lookup_cons_pair, if_pos rfl]
    exact congrArg some (f.form_kept _ (kept_ofName kind))
  rw [required_eq hlookup, Kind.ofNameOrNumber?_ofName]

theorem Heading.lookup_described {k : String} (hk : k ∈ fields) :
    (f.members (h.described kind content)).lookup k = (content.lookup k).map f.form := by
  have hkeys := hdistinct.sublist (Heading.keys_described hcontent h kind)
  have hne : k ≠ "block_type" := by
    rintro rfl
    exact (List.nodup_cons.1 (List.nodup_append.1 hdistinct).2.1).1 hk
  rw [f.lookup_members hkeys, described, lookup_append_right h.isRecord_members.keys hdistinct
    (List.mem_cons_of_mem _ hk), lookup_cons_pair, if_neg hne]

end Described

/-!
# Blocks with their bodies
-/

namespace Descriptor

theorem childrenOf?_eq (ms : Members) : childrenOf? ms =
    match ms.lookup "children" with
    | none => some []
    | some v => listOf? v := by
  induction ms with
  | nil => rfl
  | cons m rest ih =>
      obtain ⟨k, v⟩ := m
      rw [childrenOf?, lookup_cons_pair, ih]
      by_cases hk : k = "children"
      · rw [if_pos hk, if_pos hk.symm]
      · rw [if_neg hk, if_neg (Ne.symm hk)]

theorem branchesOf?_eq (ms : Members) :
    branchesOf? ms = (ms.lookup "branches").bind branchListOf? := by
  induction ms with
  | nil => rfl
  | cons m rest ih =>
      obtain ⟨k, v⟩ := m
      rw [branchesOf?, lookup_cons_pair, ih]
      by_cases hk : k = "branches"
      · rw [if_pos hk, if_pos hk.symm]
        rfl
      · rw [if_neg hk, if_neg (Ne.symm hk)]

theorem childrenOf?_of_lookup {ms : Members} {items : List Json} {xs : List Descriptor}
    (hlookup : ms.lookup "children" = some (arr items)) (hxs : itemsOf? items = some xs) :
    childrenOf? ms = some xs := by
  rw [childrenOf?_eq, hlookup]
  exact hxs

/-- The members of a container, its body the last of them. -/
def withBody (ms : Members) (children : List Descriptor) : Members :=
  ms ++ [("children", arr (listToJson children))]

section Body

variable {fields : List String} {ms : Members} (hms : (ms.map Prod.fst).Sublist fields)
  (hfields : (fields ++ ["children"]).Nodup) (children : List Descriptor)

include hms in
theorem keys_withBody :
    ((withBody ms children).map Prod.fst).Sublist (fields ++ ["children"]) := by
  rw [withBody, List.map_append]
  exact hms.append (List.Sublist.refl _)

include hfields

theorem holds_withBody : Holds (withBody ms children) fields ms :=
  fun _ hk => lookup_append_left (List.Sublist.refl _) hfields hk

include hms in
theorem lookup_withBody :
    (withBody ms children).lookup "children" = some (arr (listToJson children)) := by
  rw [withBody, lookup_append_right hms hfields List.mem_cons_self, lookup_cons_pair, if_pos rfl]

end Body

theorem exact_withBody {ms : Members} {children : List Descriptor} (hms : ∀ m ∈ ms, m.2.Exact)
    (hchildren : ExactItems (listToJson children)) :
    ∀ m ∈ withBody ms children, m.2.Exact :=
  List.forall_mem_append.2 ⟨hms, List.forall_mem_singleton.2 hchildren⟩

section Read

variable (f : Arrangement)

theorem ofJson?_leaf (h : Heading) {l : Leaf}
    (hl : ∀ v ∈ l.freeValues, v ≠ null ∧ f.form v = v) :
    ofJson? (f.form (toJson (leaf h l))) = some (leaf h l) := by
  obtain ⟨fields, hdistinct, hrecord, hread⟩ := l.exists_fields
  have hheading := Heading.ofMembers?_described hrecord.keys hdistinct h l.kind f
  have hkind := Kind.required_described hrecord.keys hdistinct h l.kind f
  have hcontent : Leaf.ofContent? l.kind (obj (f.members (h.described l.kind l.members))) =
      some l := by
    apply hread fun v hv => (hl v hv).1
    intro k hk
    rw [Heading.lookup_described hrecord.keys hdistinct h l.kind f hk,
      map_lookup_eq (hrecord.form_eq f fun v hv => (hl v hv).2)]
  rw [toJson, f.form_obj]
  change ofJson? (obj (f.members (h.described l.kind l.members))) = _
  cases l <;> simp_all [ofJson?, Leaf.kind]

theorem ofJson?_loop (h : Heading) (a : Attributes.Loop) {children : List Descriptor}
    (hchildren : itemsOf? ((listToJson children).map f.form) = some children) :
    ofJson? (f.form (toJson (loop h a children))) = some (loop h a children) := by
  have hfields : (Attributes.Loop.fields ++ ["children"]).Nodup := by decide
  have hdistinct : (Heading.fields ++ "block_type" ::
      (Attributes.Loop.fields ++ ["children"])).Nodup := by decide
  have hrecord := a.isRecord_members
  have hkeys := keys_withBody hrecord.keys children
  have hlookup := fun k => Heading.lookup_described hkeys hdistinct h .loop f (k := k)
  have hattributes : Attributes.Loop.ofMembers?
      (f.members (h.described .loop (withBody a.members children))) = some a := by
    apply Attributes.Loop.ofMembers?_of_holds
    intro k hk
    rw [hlookup k (List.mem_append_left _ hk), holds_withBody hfields children k hk,
      map_lookup_eq (hrecord.form_eq f (List.forall_mem_nil _))]
  have hbody : (f.members (h.described .loop (withBody a.members children))).lookup
      "children" = some (arr ((listToJson children).map f.form)) := by
    rw [hlookup "children" (List.mem_append_right _ List.mem_cons_self),
      lookup_withBody hrecord.keys hfields, Option.map_some, f.form_arr]
  rw [toJson, f.form_obj, List.append_assoc]
  change ofJson? (obj (f.members (h.described .loop (withBody a.members children)))) = _
  simp [ofJson?, Heading.ofMembers?_described hkeys hdistinct h .loop f,
    Kind.required_described hkeys hdistinct h .loop f, hattributes,
    childrenOf?_of_lookup hbody hchildren]

theorem ofJson?_conditional (h : Heading) {branches : List (Branch × List Descriptor)}
    (hbranches : branchItemsOf? ((branchesToJson branches).map f.form) = some branches) :
    ofJson? (f.form (toJson (conditional h branches))) = some (conditional h branches) := by
  have hdistinct : (Heading.fields ++ ["block_type", "branches"]).Nodup := by decide
  have hkeys : ([("branches", arr (branchesToJson branches))].map Prod.fst).Sublist ["branches"] :=
    List.Sublist.refl _
  have hlookup := Heading.lookup_described hkeys hdistinct h .conditional f List.mem_cons_self
  have hlist : branchesOf? (f.members (h.described .conditional
      [("branches", arr (branchesToJson branches))])) = some branches := by
    rw [branchesOf?_eq, hlookup, lookup_cons_pair, if_pos rfl, Option.map_some, f.form_arr]
    exact hbranches
  rw [toJson, f.form_obj]
  change ofJson? (obj (f.members (h.described .conditional _))) = _
  simp [ofJson?, Heading.ofMembers?_described hkeys hdistinct h .conditional f,
    Kind.required_described hkeys hdistinct h .conditional f, hlist]

theorem branchOf?_form (b : Branch) {children : List Descriptor}
    (hchildren : itemsOf? ((listToJson children).map f.form) = some children) :
    branchOf? (f.form (obj (withBody b.members children))) = some (b, children) := by
  have hfields : (Branch.fields ++ ["children"]).Nodup := by decide
  have hrecord := b.isRecord_members
  have hkeys := hfields.sublist (keys_withBody hrecord.keys children)
  have hbranch := Branch.ofMembers?_of_holds ((holds_withBody hfields children).arranged f hkeys
    (hrecord.form_eq f (List.forall_mem_nil _)))
  have hbody : (f.members (withBody b.members children)).lookup "children" =
      some (arr ((listToJson children).map f.form)) := by
    rw [f.lookup_members hkeys, lookup_withBody hrecord.keys hfields, Option.map_some, f.form_arr]
  rw [f.form_obj]
  simp [branchOf?, hbranch, childrenOf?_of_lookup hbody hchildren]

end Read

/-!
The induction follows the nesting of the document.
-/

/-- The free values of these blocks have a property. -/
def EachFree (P : Json -> Prop) (xs : List Descriptor) : Prop :=
  ∀ x ∈ xs, ∀ v ∈ x.freeValues, P v

section Nesting

variable (f : Arrangement)

mutual

theorem ofJson?_form : ∀ {x : Descriptor}, EachFree (fun v => v ≠ null ∧ f.form v = v) x.inOrder ->
    ofJson? (f.form x.toJson) = some x
  | leaf h l, hx => ofJson?_leaf f h (hx (leaf h l) List.mem_cons_self)
  | loop h a _, hx =>
      ofJson?_loop f h a (itemsOf?_form fun x hmem => hx x (List.mem_cons_of_mem _ hmem))
  | conditional h _, hx =>
      ofJson?_conditional f h
        (branchItemsOf?_form fun x hmem => hx x (List.mem_cons_of_mem _ hmem))

theorem itemsOf?_form : ∀ {xs : List Descriptor},
    EachFree (fun v => v ≠ null ∧ f.form v = v) (listInOrder xs) ->
    itemsOf? ((listToJson xs).map f.form) = some xs
  | [], _ => rfl
  | x :: xs, hxs => by
      have hx := ofJson?_form fun y hy => hxs y (List.mem_append_left _ hy)
      have hrest := itemsOf?_form fun y hy => hxs y (List.mem_append_right _ hy)
      rw [listToJson, List.map_cons, itemsOf?, hx, hrest]
      rfl

theorem branchItemsOf?_form : ∀ {branches : List (Branch × List Descriptor)},
    EachFree (fun v => v ≠ null ∧ f.form v = v) (branchesInOrder branches) ->
    branchItemsOf? ((branchesToJson branches).map f.form) = some branches
  | [], _ => rfl
  | (b, children) :: rest, hbranches => by
      have hchildren := itemsOf?_form fun y hy => hbranches y (List.mem_append_left _ hy)
      have hrest := branchItemsOf?_form fun y hy => hbranches y (List.mem_append_right _ hy)
      have hbranch := branchOf?_form f b hchildren
      rw [withBody] at hbranch
      rw [branchesToJson, List.map_cons, branchItemsOf?, hbranch, hrest]
      rfl

end

end Nesting

/-!
# Exact blocks
-/

theorem exact_described (h : Heading) (kind : Kind) {content : Members}
    (hcontent : ∀ m ∈ content, m.2.Exact) : (obj (h.described kind content)).Exact := by
  apply exactMembers_iff.2
  unfold Heading.described
  rw [List.forall_mem_append, List.forall_mem_cons]
  exact ⟨h.isRecord_members.exact (List.forall_mem_nil _), (kept_ofName kind).exact, hcontent⟩

mutual

theorem exact_toJson : ∀ {x : Descriptor}, EachFree Json.Exact x.inOrder -> x.toJson.Exact
  | leaf h l, hx => by
      obtain ⟨fields, -, hrecord, -⟩ := l.exists_fields
      exact exact_described h l.kind (hrecord.exact (hx (leaf h l) List.mem_cons_self))
  | loop h a children, hx => by
      have hchildren := exactItems_listToJson fun x hmem => hx x (List.mem_cons_of_mem _ hmem)
      rw [toJson, List.append_assoc]
      exact exact_described h .loop (exact_withBody
        (a.isRecord_members.exact (List.forall_mem_nil _)) hchildren)
  | conditional h branches, hx => by
      have hbranches := exactItems_branchesToJson fun x hmem => hx x (List.mem_cons_of_mem _ hmem)
      exact exact_described h .conditional (List.forall_mem_singleton.2 hbranches)

theorem exactItems_listToJson : ∀ {xs : List Descriptor}, EachFree Json.Exact (listInOrder xs) ->
    ExactItems (listToJson xs)
  | [], _ => trivial
  | _ :: _, hxs =>
      ⟨exact_toJson fun y hy => hxs y (List.mem_append_left _ hy),
        exactItems_listToJson fun y hy => hxs y (List.mem_append_right _ hy)⟩

theorem exactItems_branchesToJson : ∀ {branches : List (Branch × List Descriptor)},
    EachFree Json.Exact (branchesInOrder branches) -> ExactItems (branchesToJson branches)
  | [], _ => trivial
  | (b, children) :: rest, hbranches => by
      have hchildren := exactItems_listToJson fun y hy => hbranches y (List.mem_append_left _ hy)
      have hrest := exactItems_branchesToJson fun y hy => hbranches y (List.mem_append_right _ hy)
      have hbranch := exact_withBody (b.isRecord_members.exact (List.forall_mem_nil _)) hchildren
      exact ⟨exactMembers_iff.2 hbranch, hrest⟩

end

end Descriptor

/-!
# Documents
-/

namespace Definition

def members (d : Definition) : Members :=
  [("version", ofWord32 d.version),
   ("title", str d.title),
   ("parameters", arr (d.parameters.map Parameter.toJson)),
   ("blocks", arr (Descriptor.listToJson d.blocks))]

def freeValues (d : Definition) : List Json :=
  d.parameters.flatMap Parameter.freeValues ++ d.allBlocks.flatMap Descriptor.freeValues

theorem eachFree_allBlocks {d : Definition} {P : Json -> Prop} (h : ∀ v ∈ d.freeValues, P v) :
    Descriptor.EachFree P d.allBlocks :=
  fun x hx v hv => h v (List.mem_append_right _ (List.mem_flatMap.2 ⟨x, hx, hv⟩))

theorem forall_freeValues_parameter {d : Definition} {P : Json -> Prop}
    (h : ∀ v ∈ d.freeValues, P v) {p : Parameter} (hp : p ∈ d.parameters) :
    ∀ v ∈ p.freeValues, P v :=
  fun v hv => h v (List.mem_append_left _ (List.mem_flatMap.2 ⟨p, hp, hv⟩))

theorem exact_toJson {d : Definition} (h : ∀ v ∈ d.freeValues, v.Exact) : d.toJson.Exact := by
  have hparameters : ExactItems (d.parameters.map Parameter.toJson) := by
    apply exactItems_iff.2
    intro v hv
    obtain ⟨p, hp, rfl⟩ := List.mem_map.1 hv
    exact Parameter.exact_toJson (forall_freeValues_parameter h hp)
  have hblocks := Descriptor.exactItems_listToJson (eachFree_allBlocks h)
  exact ⟨(kept_ofWord32 d.version).exact, trivial, hparameters, hblocks, trivial⟩

section Read

variable (f : Arrangement)

theorem form_toJson (d : Definition) : f.form d.toJson = obj (f.members d.members) :=
  f.form_obj d.members

theorem lookup_form (d : Definition) (k : String) :
    (f.members d.members).lookup k = (d.members.lookup k).map f.form := by
  have hkeys : (d.members.map Prod.fst).Nodup := (by decide : fields.Nodup)
  exact f.lookup_members hkeys k

theorem lookup_version (d : Definition) :
    (f.members d.members).lookup "version" = some (ofWord32 d.version) := by
  rw [lookup_form]
  simp [members, f.form_kept _ (kept_ofWord32 d.version)]

theorem ofJson?_form {d : Definition} (h : ∀ v ∈ d.freeValues, v ≠ null ∧ f.form v = v) :
    ofJson? (f.form d.toJson) = some d := by
  have htitle : (f.members d.members).lookup "title" = some (str d.title) := by
    rw [lookup_form]
    simp [members, lookup_cons_pair, f.form_kept _ (kept_str d.title)]
  have hparameters : (f.members d.members).lookup "parameters" =
      some (arr (d.parameters.map fun p => f.form p.toJson)) := by
    rw [lookup_form]
    simp [members, lookup_cons_pair, f.form_arr]
  have hblocks : (f.members d.members).lookup "blocks" =
      some (arr ((Descriptor.listToJson d.blocks).map f.form)) := by
    rw [lookup_form]
    simp [members, lookup_cons_pair, f.form_arr]
  have hparameterList : list? Parameter.ofJson? (arr (d.parameters.map fun p =>
      f.form p.toJson)) = some d.parameters :=
    list?_map fun p hp => Parameter.ofJson?_form f (forall_freeValues_parameter h hp)
  have hblockList : Descriptor.listOf? (arr ((Descriptor.listToJson d.blocks).map f.form)) =
      some d.blocks := Descriptor.itemsOf?_form f (eachFree_allBlocks h)
  have hrecord : record? fields (obj (f.members d.members)) = some (f.members d.members) := rfl
  rw [form_toJson, ofJson?, hrecord, Option.bind_eq_bind, Option.bind_some,
    required_eq (lookup_version f d), word32?_ofWord32, Option.bind_eq_bind, Option.bind_some,
    required_eq htitle, text?_str, Option.bind_eq_bind, Option.bind_some, defaulted_eq hparameters,
    hparameterList, Option.bind_eq_bind, Option.bind_some, defaulted_eq hblocks, hblockList]
  rfl

end Read

end Definition

end Workflow
