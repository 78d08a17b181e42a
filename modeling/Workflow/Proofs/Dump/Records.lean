import Workflow.Graph.Json
import Workflow.Proofs.Definition.Records

/-!
# Records of a graph

Nodes and edges are read again from what they are written as, however the members of each object
stand.  The kind of a node and the kind of the block inside it are two tags, each beside the
members that belong to it.
-/

namespace Workflow

open Json

/-!
# Tagged records
-/

namespace Json

section Tagged

variable {α : Type} {tag : String} {kind : Json} {fields : List String} {content : Members}

/-- A record with its kind in front. -/
def tagged (tag : String) (kind : Json) (content : Members) : Members :=
  (tag, kind) :: content

theorem nodup_keys_tagged (hcontent : (content.map Prod.fst).Sublist fields)
    (hdistinct : (tag :: fields).Nodup) : ((tagged tag kind content).map Prod.fst).Nodup :=
  hdistinct.sublist (hcontent.cons_cons tag)

theorem holds_tagged (hdistinct : (tag :: fields).Nodup) :
    Holds (tagged tag kind content) fields content := by
  intro k hk
  have hne : k ≠ tag := ne_of_mem_of_not_mem hk (List.nodup_cons.1 hdistinct).1
  rw [tagged, lookup_cons_pair, if_neg hne]

/-- The tag of a record is found in every arrangement, and the record with it. -/
theorem tagged?_form (f : Arrangement) {read : Json -> Option α} {a : α}
    (hkeys : ((tagged tag kind content).map Prod.fst).Nodup) (hkind : kind.Kept)
    (hread : read kind = some a) :
    tagged? tag read (f.form (obj (tagged tag kind content))) =
      some (a, obj (f.members (tagged tag kind content))) := by
  have hlookup : (f.members (tagged tag kind content)).lookup tag = some kind := by
    rw [f.lookup_members hkeys, tagged, lookup_cons_pair, if_pos rfl, Option.map_some,
      f.form_kept kind hkind]
  rw [f.form_obj]
  simp [tagged?, hlookup, hread]

end Tagged

namespace Arrangement

@[simp] theorem form_str (f : Arrangement) (s : String) : f.form (str s) = str s :=
  f.form_kept _ (kept_str s)

@[simp] theorem form_bool (f : Arrangement) (b : Bool) : f.form (bool b) = bool b :=
  f.form_kept _ (kept_bool b)

@[simp] theorem form_ofName {α : Type} [Named α] (f : Arrangement) (a : α) :
    f.form (ofName a) = ofName a :=
  f.form_kept _ (kept_ofName a)

@[simp] theorem form_nullable (f : Arrangement) (o : Option String) :
    f.form ((o.map str).getD null) = (o.map str).getD null := by
  cases o with
  | none => exact f.form_kept _ ⟨rfl, trivial⟩
  | some s => exact f.form_str s

theorem list?_form {α : Type} (f : Arrangement) {read : Json -> Option α} {write : α -> Json}
    {xs : List α} (h : ∀ x ∈ xs, read (f.form (write x)) = some x) :
    list? read (f.form (arr (xs.map write))) = some xs := by
  rw [f.form_arr, List.map_map]
  exact list?_map h

end Arrangement

theorem optional_nullable {ms : Members} {key : String} {o : Option String}
    (h : ms.lookup key = some ((o.map str).getD null)) : optional ms key text? = some o := by
  rw [optional, h]
  cases o <;> rfl

end Json

/-!
# Blocks
-/

theorem Branch.ofJson?_form (f : Arrangement) (b : Branch) :
    ofJson? (f.form b.toJson) = some b := by
  have hrecord := b.isRecord_members
  have hkeys : (b.members.map Prod.fst).Nodup :=
    (by decide : fields.Nodup).sublist hrecord.keys
  have hholds : Holds b.members fields b.members := fun _ _ => rfl
  have hread := ofMembers?_of_holds
    (hholds.arranged f hkeys (hrecord.form_eq f (List.forall_mem_nil _)))
  rw [toJson, f.form_obj]
  exact hread

theorem Branch.exact_toJson (b : Branch) : b.toJson.Exact :=
  exactMembers_iff.2 (b.isRecord_members.exact (List.forall_mem_nil _))

theorem Conditional.ofMembers?_form (f : Arrangement) {kind : Json} (c : Conditional) :
    ofMembers? (f.members (tagged "block_type" kind c.members)) = some c := by
  have hkeys : ((tagged "block_type" kind c.members).map Prod.fst).Nodup :=
    (by decide : ("block_type" :: fields).Nodup)
  have hbranches : (f.members (tagged "block_type" kind c.members)).lookup "branches" =
      some (f.form (arr (c.branches.map Branch.toJson))) := by
    rw [f.lookup_members hkeys]
    rfl
  have hactive : (f.members (tagged "block_type" kind c.members)).lookup "active_branch_id" =
      some (str c.active) := by
    rw [f.lookup_members hkeys]
    exact congrArg some (f.form_str c.active)
  have hlist := f.list?_form fun b (_ : b ∈ c.branches) => Branch.ofJson?_form f b
  simp [ofMembers?, required_eq hbranches, hlist, required_eq hactive]

namespace Block

/-- The values of the attributes to which a document gives no shape. -/
def freeValues : Block -> List Json
  | leaf l => l.freeValues
  | _ => []

/-- A block as it is written: its kind, and the attributes that belong to the kind. -/
def members (b : Block) : Members :=
  tagged "block_type" (ofName b.kind) b.attributes

theorem ofNested?_of_content (f : Arrangement) {b : Block}
    (hkeys : (b.members.map Prod.fst).Nodup)
    (hcontent : ofContent? b.kind (obj (f.members b.members)) = some b) :
    ofNested? (f.form b.toJson) = some b := by
  have htag := tagged?_form f hkeys (kept_ofName b.kind) (Kind.ofNameOrNumber?_ofName b.kind)
  change (tagged? "block_type" Kind.ofNameOrNumber? (f.form (obj b.members))).bind
    (fun found => ofContent? found.1 found.2) = _
  rw [members, htag, Option.bind_some]
  exact hcontent

theorem ofNested?_of_record (f : Arrangement) {b : Block} {fields : List String} {free : List Json}
    (hdistinct : ("block_type" :: fields).Nodup) (hrecord : IsRecord fields free b.attributes)
    (hfree : ∀ v ∈ free, f.form v = v)
    (hread : ∀ ms, Holds ms fields b.attributes -> ofContent? b.kind (obj ms) = some b) :
    ofNested? (f.form b.toJson) = some b := by
  have hkeys : (b.members.map Prod.fst).Nodup := nodup_keys_tagged hrecord.keys hdistinct
  have hholds : Holds b.members fields b.attributes := holds_tagged hdistinct
  exact ofNested?_of_content f hkeys
    (hread _ (hholds.arranged f hkeys (hrecord.form_eq f hfree)))

theorem ofNested?_form (f : Arrangement) {b : Block}
    (h : ∀ v ∈ b.freeValues, v ≠ null ∧ f.form v = v) :
    ofNested? (f.form b.toJson) = some b := by
  cases b with
  | leaf l =>
      rcases l.exists_fields with ⟨fields, hdistinct, hrecord, hread⟩
      apply ofNested?_of_record f (List.nodup_append.1 hdistinct).2.1 hrecord fun v hv => (h v hv).2
      intro ms hms
      have hl := hread (fun v hv => (h v hv).1) ms hms
      cases l <;> exact congrArg (Option.map leaf) hl
  | loop a =>
      apply ofNested?_of_record f (by decide) a.isRecord_members (List.forall_mem_nil _)
      intro ms hms
      exact congrArg (Option.map loop) (Attributes.Loop.ofMembers?_of_holds hms)
  | conditional c =>
      have hkeys : ((conditional c).members.map Prod.fst).Nodup :=
        (by decide : ("block_type" :: Conditional.fields).Nodup)
      exact ofNested?_of_content f hkeys (congrArg (Option.map conditional) (c.ofMembers?_form f))

theorem exact_toJson {b : Block} (h : ∀ v ∈ b.freeValues, v.Exact) : b.toJson.Exact := by
  have hattributes : ∀ m ∈ b.attributes, m.2.Exact := by
    cases b with
    | leaf l =>
        rcases l.exists_fields with ⟨fields, -, hrecord, -⟩
        exact hrecord.exact h
    | loop a => exact a.isRecord_members.exact (List.forall_mem_nil _)
    | conditional c =>
        have hbranches : ExactItems (c.branches.map Branch.toJson) :=
          exactItems_iff.2 (List.forall_mem_map.2 fun b _ => b.exact_toJson)
        exact exactMembers_iff.1 ⟨hbranches, (kept_str c.active).exact, trivial⟩
  exact exactMembers_iff.2 (List.forall_mem_cons.2 ⟨(kept_ofName b.kind).exact, hattributes⟩)

end Block

/-!
# Nodes
-/

namespace Content

def freeValues : Content -> List Json
  | block _ b => b.freeValues
  | _ => []

theorem blockOf?_form (f : Arrangement) (h : Heading) {b : Block}
    (hb : ∀ v ∈ b.freeValues, v ≠ null ∧ f.form v = v) :
    blockOf? (obj (f.members (tagged "node_type" (str "block") (block h b).members))) =
      some (block h b) := by
  have hkeys : ((tagged "node_type" (str "block") (block h b).members).map Prod.fst).Nodup :=
    (by decide : ("node_type" :: blockFields).Nodup)
  have hlookup := f.lookup_members hkeys
  have hlabel := hlookup "label"
  have hcontinue := hlookup "continue_on_failure"
  have hmodel := hlookup "model"
  have hblock := hlookup "block"
  simp [tagged, members, lookup_cons_pair] at hlabel hcontinue hmodel hblock
  simp [tagged, members, blockOf?, record?, recordWith?, required_eq hlabel,
    required_eq hcontinue, optional_nullable hmodel, required_eq hblock, Block.ofNested?_form f hb]

theorem ofJson?_form (f : Arrangement) {c : Content}
    (h : ∀ v ∈ c.freeValues, v ≠ null ∧ f.form v = v) : ofJson? (f.form c.toJson) = some c := by
  have htag : tagged? "node_type" text? (f.form (obj (tagged "node_type" (str c.typeName)
      c.members))) = some (c.typeName, obj (f.members (tagged "node_type" (str c.typeName)
        c.members))) := by
    apply tagged?_form f _ (kept_str _) (text?_str _)
    cases c with
    | start => exact List.nodup_singleton _
    | insertionMarker => exact List.nodup_singleton _
    | block heading b => exact (by decide : ("node_type" :: blockFields).Nodup)
  change (tagged? "node_type" text? (f.form (obj (tagged "node_type" (str c.typeName)
    c.members)))).bind (fun found => ofContent? found.1 found.2) = _
  rw [htag, Option.bind_some]
  cases c with
  | start => rfl
  | insertionMarker => rfl
  | block heading b => exact blockOf?_form f heading h

theorem exact_toJson {c : Content} (h : ∀ v ∈ c.freeValues, v.Exact) : c.toJson.Exact := by
  cases c with
  | start => exact ⟨trivial, trivial⟩
  | insertionMarker => exact ⟨trivial, trivial⟩
  | block heading b =>
      have hmodel : ((heading.model.map str).getD null).Exact := by
        cases heading.model <;> trivial
      exact ⟨trivial, trivial, trivial, hmodel, Block.exact_toJson h, trivial⟩

end Content

namespace Node

def freeValues (n : Node) : List Json :=
  n.content.freeValues

def members (n : Node) : Members :=
  [("id", str n.id)] ++ present "parent_id" str n.parent ++ [("kind", n.content.toJson)]

theorem ofJson?_form (f : Arrangement) {n : Node}
    (h : ∀ v ∈ n.freeValues, v ≠ null ∧ f.form v = v) : ofJson? (f.form n.toJson) = some n := by
  have hkeys : (n.members.map Prod.fst).Nodup := by
    unfold members
    cases n.parent <;> exact of_decide_eq_true rfl
  have hlookup := f.lookup_members hkeys
  have hcontent := Content.ofJson?_form f h
  change ofJson? (f.form (obj n.members)) = _
  rw [f.form_obj]
  generalize f.members n.members = ms at hlookup ⊢
  have hid := hlookup "id"
  have hparent := hlookup "parent_id"
  have hkind := hlookup "kind"
  simp [members, List.lookup_append, lookup_cons_pair, lookup_present, Function.comp_def]
    at hid hparent hkind
  simp [ofJson?, record?, recordWith?, required_eq hid, optional_str hparent, required_eq hkind,
    hcontent]

theorem exact_toJson {n : Node} (h : ∀ v ∈ n.freeValues, v.Exact) : n.toJson.Exact := by
  have hcontent := Content.exact_toJson h
  apply exactMembers_iff.2
  cases n.parent <;> simp [present, hcontent, (kept_str _).exact]

end Node

/-!
# Edges
-/

theorem EdgeKind.named?_ofName (k : EdgeKind) : named? (ofName k) = some k := by
  cases k <;> rfl

namespace BranchTag

def members (t : BranchTag) : Members :=
  [("conditional_id", str t.conditional), ("branch_id", str t.branch)]

theorem ofJson?_form (f : Arrangement) (t : BranchTag) : ofJson? (f.form t.toJson) = some t := by
  have hkeys : (t.members.map Prod.fst).Nodup := (by decide : fields.Nodup)
  have hlookup := f.lookup_members hkeys
  change ofJson? (f.form (obj t.members)) = _
  rw [f.form_obj]
  generalize f.members t.members = ms at hlookup ⊢
  have hconditional := hlookup "conditional_id"
  have hbranch := hlookup "branch_id"
  simp [members, lookup_cons_pair] at hconditional hbranch
  simp [ofJson?, record?, recordWith?, required_eq hconditional, required_eq hbranch]

end BranchTag

namespace Edge

def members (e : Edge) : Members :=
  [("id", str e.id),
   ("source", str e.source),
   ("target", str e.target),
   ("kind", ofName e.kind)] ++
  present "branch" BranchTag.toJson e.tag ++
  [("hidden", bool e.hidden)]

theorem ofJson?_form (f : Arrangement) (e : Edge) : ofJson? (f.form e.toJson) = some e := by
  have hkeys : (e.members.map Prod.fst).Nodup := by
    unfold members
    cases e.tag <;> exact of_decide_eq_true rfl
  have hlookup := f.lookup_members hkeys
  change ofJson? (f.form (obj e.members)) = _
  rw [f.form_obj]
  generalize f.members e.members = ms at hlookup ⊢
  have hid := hlookup "id"
  have hsource := hlookup "source"
  have htarget := hlookup "target"
  have hkind := hlookup "kind"
  have hbranch := hlookup "branch"
  have hhidden := hlookup "hidden"
  simp [members, List.lookup_append, lookup_cons_pair, lookup_present]
    at hid hsource htarget hkind hbranch hhidden
  have htag : optional ms "branch" BranchTag.ofJson? = some e.tag := by
    apply optional_eq hbranch
    intro t _
    refine ⟨BranchTag.ofJson?_form f t, ?_⟩
    rw [Function.comp_apply, BranchTag.toJson, f.form_obj]
    exact Json.noConfusion
  simp [ofJson?, record?, recordWith?, required_eq hid, required_eq hsource, required_eq htarget,
    required_eq hkind, EdgeKind.named?_ofName, htag, required_eq hhidden]

theorem exact_toJson (e : Edge) : e.toJson.Exact := by
  have htag : ∀ t : BranchTag, t.toJson.Exact := fun _ => ⟨trivial, trivial, trivial⟩
  apply exactMembers_iff.2
  cases e.tag <;> simp [present, htag, (kept_str _).exact, (kept_bool _).exact,
    (kept_ofName _).exact]

end Edge

/-!
# Graphs
-/

namespace Graph

/-- The values in a graph to which its document gives no shape. -/
def freeValues (g : Graph) : List Json :=
  g.nodes.flatMap Node.freeValues

def members (g : Graph) : Members :=
  [("nodes", arr (g.nodes.map Node.toJson)), ("edges", arr (g.edges.map Edge.toJson))]

theorem ofJson?_form (f : Arrangement) {g : Graph}
    (h : ∀ v ∈ g.freeValues, v ≠ null ∧ f.form v = v) : ofJson? (f.form g.toJson) = some g := by
  have hkeys : (g.members.map Prod.fst).Nodup := (by decide : ["nodes", "edges"].Nodup)
  have hlookup := f.lookup_members hkeys
  have hnodes : (f.members g.members).lookup "nodes" =
      some (f.form (arr (g.nodes.map Node.toJson))) := hlookup "nodes"
  have hedges : (f.members g.members).lookup "edges" =
      some (f.form (arr (g.edges.map Edge.toJson))) := hlookup "edges"
  have hnodeList : list? Node.ofJson? (f.form (arr (g.nodes.map Node.toJson))) = some g.nodes := by
    apply f.list?_form
    intro n hn
    exact Node.ofJson?_form f fun v hv => h v (List.mem_flatMap.2 ⟨n, hn, hv⟩)
  have hedgeList : list? Edge.ofJson? (f.form (arr (g.edges.map Edge.toJson))) = some g.edges :=
    f.list?_form fun e _ => Edge.ofJson?_form f e
  change ofJson? (f.form (obj g.members)) = _
  rw [f.form_obj]
  simp [ofJson?, members?, required_eq hnodes, hnodeList, required_eq hedges, hedgeList]

theorem exact_toJson {g : Graph} (h : ∀ v ∈ g.freeValues, v.Exact) : g.toJson.Exact := by
  have hnodes : ExactItems (g.nodes.map Node.toJson) := by
    refine exactItems_iff.2 (List.forall_mem_map.2 fun n hn => ?_)
    exact Node.exact_toJson fun v hv => h v (List.mem_flatMap.2 ⟨n, hn, hv⟩)
  have hedges : ExactItems (g.edges.map Edge.toJson) :=
    exactItems_iff.2 (List.forall_mem_map.2 fun e _ => e.exact_toJson)
  exact ⟨hnodes, hedges, trivial⟩

end Graph

end Workflow
