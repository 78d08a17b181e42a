import Workflow.Proofs.Definition.Records
import Workflow.Proofs.Reference.Renaming

/-!
# The fields that hold references

The attributes of a block, as they are written, have a key at some fields.  The list of references
has one entry for each of these and no other.  Clearing and renaming change the keys at the same
fields, and leave everything else that is written of the block as it is.
-/

namespace Workflow

open Json

/-!
# Keys among the attributes
-/

namespace Reference

/-- The key that is read as a reference. -/
def key : Reference -> String
  | output l => OutputKey.ofLabel l
  | parameter key => key
  | label l => l

theorem key_ofKey (key : String) : (ofKey key).key = key := by
  unfold ofKey
  cases hlabel : OutputKey.label? key with
  | none => rfl
  | some l => exact (OutputKey.label?_eq_some.1 hlabel).2.symm

end Reference

namespace Field

/-- The key at a field, among the attributes that are written of a block. -/
def key? (ms : Members) : Field -> Option String
  | parameterKey i => ((ms.lookup "parameter_keys").bind texts?).bind fun keys => keys[i]?
  | loopOver => (ms.lookup "loop_over").bind text?
  | mergeLabel i => ((ms.lookup "branches").bind (list? members?)).bind fun branches =>
      branches[i]?.bind fun b => (b.lookup "merge_label").bind text?

/-- What the key at a field refers to.  A merge label is a label; other keys are read. -/
def refer : Field -> String -> Reference
  | mergeLabel _, l => .label l
  | _, key => .ofKey key

theorem key_refer (f : Field) (key : String) : (f.refer key).key = key := by
  cases f with
  | parameterKey i => exact Reference.key_ofKey key
  | loopOver => exact Reference.key_ofKey key
  | mergeLabel i => rfl

theorem before_parameterKey {i j : Nat} (h : i < j) :
    (parameterKey i).before (parameterKey j) := by
  simp [before, rank, h]

theorem before_mergeLabel {i j : Nat} (h : i < j) : (mergeLabel i).before (mergeLabel j) := by
  simp [before, rank, h]

end Field

namespace Block

def key? (b : Block) (f : Field) : Option String :=
  f.key? b.attributes

/-- A branch, as it is written, without its merge label. -/
def unmerged : Json -> Json
  | obj ms => obj (eraseMember "merge_label" ms)
  | v => v

/-- The attributes of a block without the keys at its fields. -/
def unkeyed (ms : Members) : Members :=
  (eraseMember "loop_over" (eraseMember "parameter_keys" ms)).map fun m =>
    match m with
    | ("branches", arr items) => ("branches", arr (items.map unmerged))
    | m => m

/-- All that is written of a block apart from the keys at its fields. -/
def frame (b : Block) : Kind × Members :=
  (b.kind, unkeyed b.attributes)

/-- A block with its parameter keys, the list it goes over and its merge labels changed. -/
def rekey (keys : List String -> List String) (source merge : Option String -> Option String) :
    Block -> Block
  | leaf l => leaf (l.mapKeys keys)
  | loop a => loop { a with loopOver := source a.loopOver }
  | conditional c =>
      conditional { c with
        branches := c.branches.map fun b => { b with mergeLabel := merge b.mergeLabel } }

end Block

/-!
# Leaves
-/

namespace Leaf

theorem lookup_fields (l : Leaf) :
    l.members.lookup "parameter_keys" = l.parameterKeys?.map ofTexts ∧
      l.members.lookup "loop_over" = none ∧ l.members.lookup "branches" = none := by
  cases l <;> simp [members, parameterKeys?, lookup_cons_pair, lookup_present, List.lookup_append,
    Attributes.Task.members, Attributes.Code.members, Attributes.TextPrompt.members,
    Attributes.HttpRequest.members, Attributes.Extraction.members,
    Attributes.FileDownload.members, Attributes.Login.members, Attributes.SendEmail.members,
    Attributes.Wait.members, Attributes.GotoUrl.members, Attributes.PdfParser.members,
    Attributes.FileParser.members, Attributes.Validation.members]

theorem eraseMember_mapKeys (f : List String -> List String) (l : Leaf) :
    eraseMember "parameter_keys" (l.mapKeys f).members =
      eraseMember "parameter_keys" l.members := by
  have happend : ∀ ms ns : Members, eraseMember "parameter_keys" (ms ++ ns) =
      eraseMember "parameter_keys" ms ++ eraseMember "parameter_keys" ns :=
    fun _ _ => List.filter_append ..
  cases l <;> simp only [mapKeys, members, happend, Attributes.Task.members,
    Attributes.TextPrompt.members, Attributes.HttpRequest.members, Attributes.Extraction.members,
    Attributes.FileDownload.members, Attributes.Login.members] <;> rfl

end Leaf

/-!
# The key at a field
-/

namespace Block

theorem key?_leaf (l : Leaf) (f : Field) : (leaf l).key? f =
    match f with
    | .parameterKey i => l.parameterKeys[i]?
    | _ => none := by
  rcases l.lookup_fields with ⟨hkeys, hsource, hbranches⟩
  cases f with
  | parameterKey i =>
      simp only [key?, Field.key?, attributes, hkeys, Leaf.parameterKeys]
      cases l.parameterKeys? <;> simp
  | loopOver => simp only [key?, Field.key?, attributes, hsource, Option.bind_none]
  | mergeLabel i => simp only [key?, Field.key?, attributes, hbranches, Option.bind_none]

theorem key?_loop (a : Attributes.Loop) (f : Field) : (loop a).key? f =
    match f with
    | .loopOver => a.loopOver
    | _ => none := by
  rcases a with ⟨loopOver, completeIfEmpty⟩
  cases loopOver <;> cases f <;> rfl

theorem key?_conditional (c : Conditional) (f : Field) : (conditional c).key? f =
    match f with
    | .mergeLabel i => c.branches[i]?.bind Branch.mergeLabel
    | _ => none := by
  cases f with
  | parameterKey i => rfl
  | loopOver => rfl
  | mergeLabel i =>
      have hlookup : (conditional c).attributes.lookup "branches" =
          some (arr ((c.branches.map Branch.members).map obj)) := by
        rw [List.map_map]
        rfl
      have hbranches : list? members? (arr ((c.branches.map Branch.members).map obj)) =
          some (c.branches.map Branch.members) := list?_map fun _ _ => rfl
      have hlabel : ∀ b : Branch, (b.members.lookup "merge_label").bind text? = b.mergeLabel := by
        intro b
        rcases b with ⟨id, label, expression, mergeLabel, isDefault⟩
        cases expression <;> cases mergeLabel <;> rfl
      simp only [key?, Field.key?, hlookup, Option.bind_some, hbranches, List.getElem?_map]
      cases c.branches[i]? with
      | none => rfl
      | some b => exact hlabel b

/-!
# The list of references
-/

/-- One entry for each field that has a key, in the order of the fields.  What is listed tells the
key. -/
structure Lists (b : Block) (refs : List (Field × Reference)) : Prop where
  ordered : refs.Pairwise fun x y => x.1.before y.1
  mem_iff : ∀ f r, (f, r) ∈ refs <-> ∃ key, b.key? f = some key ∧ f.refer key = r
  keys : ∀ x ∈ refs, b.key? x.1 = some x.2.key

theorem pairwise_zipIdx {α : Type} (xs : List α) : xs.zipIdx.Pairwise fun x y => x.2 < y.2 := by
  rw [← List.pairwise_map (f := Prod.snd), List.zipIdx_map_snd]
  exact List.pairwise_lt_range'

theorem pairwise_references (b : Block) : b.references.Pairwise fun x y => x.1.before y.1 := by
  cases b with
  | leaf l => exact (pairwise_zipIdx l.parameterKeys).map _ fun _ _ h => Field.before_parameterKey h
  | loop a => cases h : a.loopOver <;> simp [references, h]
  | conditional c =>
      refine (pairwise_zipIdx c.branches).filterMap _ fun x y h u hu v hv => ?_
      rcases Option.map_eq_some_iff.1 hu with ⟨-, -, rfl⟩
      rcases Option.map_eq_some_iff.1 hv with ⟨-, -, rfl⟩
      exact Field.before_mergeLabel h

theorem mem_references_iff {b : Block} {f : Field} {r : Reference} :
    (f, r) ∈ b.references <-> ∃ key, b.key? f = some key ∧ f.refer key = r := by
  cases b with
  | leaf l =>
      simp only [references, List.mem_map, Prod.exists, List.mem_zipIdx_iff_getElem?,
        Prod.mk.injEq, key?_leaf]
      constructor
      · intro h
        rcases h with ⟨key, i, hkey, rfl, rfl⟩
        exact ⟨key, hkey, rfl⟩
      · intro h
        rcases h with ⟨key, hkey, hread⟩
        cases f with
        | parameterKey i => exact ⟨key, i, hkey, rfl, hread⟩
        | loopOver => cases hkey
        | mergeLabel i => cases hkey
  | loop a =>
      rw [key?_loop]
      cases h : a.loopOver with
      | none => cases f <;> simp [references, h]
      | some key => cases f <;> simp [references, Field.refer, eq_comm, h]
  | conditional c =>
      simp only [references, List.mem_filterMap, Prod.exists, List.mem_zipIdx_iff_getElem?,
        Option.map_eq_some_iff, Prod.mk.injEq, key?_conditional]
      constructor
      · intro h
        rcases h with ⟨b, i, hb, l, hl, rfl, rfl⟩
        exact ⟨l, by simp [hb, hl], rfl⟩
      · intro h
        rcases h with ⟨l, hl, hread⟩
        cases f with
        | parameterKey i => cases hl
        | loopOver => cases hl
        | mergeLabel i =>
            rcases Option.bind_eq_some_iff.1 hl with ⟨b, hb, hbl⟩
            exact ⟨b, i, hb, l, hbl, rfl, hread⟩

theorem lists_references (b : Block) : b.Lists b.references where
  ordered := b.pairwise_references
  mem_iff := fun _ _ => mem_references_iff
  keys := by
    intro x hx
    rcases mem_references_iff.1 hx with ⟨key, hkey, hread⟩
    rw [hkey, ← hread, Field.key_refer]

/-!
# Changing keys where they stand
-/

section Rekey

variable {keys : List String -> List String} {source merge : Option String -> Option String}

theorem unmerged_toJson (b : Branch) (m : Option String) :
    unmerged ({ b with mergeLabel := m } : Branch).toJson = unmerged b.toJson := by
  rcases b with ⟨id, label, expression, mergeLabel, isDefault⟩
  cases expression <;> cases mergeLabel <;> cases m <;> rfl

theorem frame_rekey (b : Block) : (b.rekey keys source merge).frame = b.frame := by
  cases b with
  | leaf l =>
      simp only [frame, rekey, kind, attributes, unkeyed, Leaf.kind_mapKeys,
        Leaf.eraseMember_mapKeys]
  | loop a =>
      have hframe : ∀ loopOver, frame (loop { a with loopOver }) =
          (Kind.loop, [("complete_if_empty", Json.bool a.completeIfEmpty)]) := by
        intro loopOver
        cases loopOver <;> rfl
      exact (hframe (source a.loopOver)).trans (hframe a.loopOver).symm
  | conditional c =>
      have hframe : ∀ branches, frame (conditional { c with branches }) =
          (Kind.conditional, [("branches", arr ((branches.map Branch.toJson).map unmerged)),
            ("active_branch_id", str c.active)]) := fun _ => rfl
      rw [rekey, hframe, hframe c.branches]
      simp only [List.map_map, Function.comp_def, unmerged_toJson]

theorem key?_loopOver_rekey (hsource : source none = none) (b : Block) :
    (b.rekey keys source merge).key? .loopOver = source (b.key? .loopOver) := by
  cases b with
  | leaf l => rw [rekey, key?_leaf, key?_leaf, hsource]
  | loop a => rw [rekey, key?_loop, key?_loop]
  | conditional c => rw [rekey, key?_conditional, key?_conditional, hsource]

theorem key?_mergeLabel_rekey (hmerge : merge none = none) (b : Block) (i : Nat) :
    (b.rekey keys source merge).key? (.mergeLabel i) = merge (b.key? (.mergeLabel i)) := by
  cases b with
  | leaf l => rw [rekey, key?_leaf, key?_leaf, hmerge]
  | loop a => rw [rekey, key?_loop, key?_loop, hmerge]
  | conditional c =>
      rw [rekey, key?_conditional, key?_conditional]
      simp only [List.getElem?_map]
      cases c.branches[i]? with
      | none => exact hmerge.symm
      | some b => rfl

end Rekey

/-!
# Clearing
-/

theorem retainLabels_eq_rekey (keep : String -> Bool) (b : Block) : (b.retainLabels keep).1 =
    b.rekey (List.filter (keepsKey keep)) (Option.filter (keepsKey keep)) (Option.filter keep) := by
  cases b with
  | leaf l => rfl
  | loop a =>
      rcases a with ⟨loopOver, completeIfEmpty⟩
      cases loopOver with
      | none => rfl
      | some key => cases h : keepsKey keep key <;> simp [retainLabels, rekey, Option.filter_some, h]
  | conditional c =>
      simp only [retainLabels, rekey]
      congr 2
      apply List.map_congr_left
      intro b _
      rcases b with ⟨id, label, expression, mergeLabel, isDefault⟩
      cases mergeLabel with
      | none => rfl
      | some l => cases h : keep l <;> simp [keepsMerge, Option.filter_some, h]

theorem retainLabels_eq_self_iff {keep : String -> Bool} {b : Block} :
    (b.retainLabels keep).1 = b <-> ∀ r ∈ b.held, r.stays keep := by
  constructor
  · intro h
    rw [← List.filter_eq_self, ← held_retainLabels, h]
  · intro h
    apply retainLabels_eq_self
    intro r hr l hl
    have hstays := h r hr
    rwa [Reference.stays, hl] at hstays

theorem retainLabels_snd (keep : String -> Bool) (b : Block) :
    (b.retainLabels keep).2 <-> ∃ r ∈ b.held, r.stays keep = false := by
  cases b with
  | leaf l =>
      have hlength : (l.parameterKeys.filter (keepsKey keep)).length = l.parameterKeys.length <->
          ∀ key ∈ l.parameterKeys, keepsKey keep key := List.length_filter_eq_length_iff
      simp only [retainLabels, held, bne_iff_ne, ne_eq, hlength, not_forall, exists_prop,
        Bool.not_eq_true, keepsKey_eq, List.mem_map, exists_exists_and_eq_and]
  | loop a =>
      rcases a with ⟨loopOver, completeIfEmpty⟩
      cases loopOver with
      | none => simp [retainLabels, held]
      | some key => cases h : keepsKey keep key <;> simp [retainLabels, held, ← keepsKey_eq, h]
  | conditional c =>
      have hmerge : ∀ b : Branch, keepsMerge keep b = false <->
          ∃ l, b.mergeLabel = some l ∧ keep l = false := by
        intro b
        cases h : b.mergeLabel <;> simp [keepsMerge, h]
      simp only [retainLabels, held, Bool.not_eq_true', List.all_eq_false, Bool.not_eq_true, hmerge,
        List.mem_map, List.mem_filterMap, exists_exists_and_eq_and]
      constructor
      · intro h
        rcases h with ⟨b, hb, l, hl, hkeep⟩
        exact ⟨l, ⟨b, hb, hl⟩, hkeep⟩
      · intro h
        rcases h with ⟨l, ⟨b, hb, hl⟩, hkeep⟩
        exact ⟨b, hb, l, hl, hkeep⟩

/-!
# Renaming
-/

theorem mapLabels_eq_rekey (f : String -> String) (b : Block) : b.mapLabels f =
    b.rekey (List.map (OutputKey.mapLabel f)) (Option.map (OutputKey.mapLabel f))
      (Option.map f) := by
  cases b <;> rfl

theorem renameLabel_snd {old : String} (hold : old ≠ "") (new : String) (b : Block) :
    (b.renameLabel old new).2 <-> ∃ r ∈ b.held, r.label? = some old := by
  have hkey : ∀ key, (Reference.ofKey key).label? = some old <-> key = OutputKey.ofLabel old := by
    intro key
    rw [Reference.label?_ofKey, OutputKey.label?_eq_some, and_iff_right hold]
  cases b with
  | leaf l =>
      simp only [renameLabel, held, List.any_eq_true, beq_iff_eq, List.mem_map,
        exists_exists_and_eq_and, hkey]
  | loop a =>
      simp only [renameLabel, held, List.mem_map, Option.mem_toList, exists_exists_and_eq_and, hkey,
        exists_eq_right]
      by_cases hsource : a.loopOver = some (OutputKey.ofLabel old) <;> simp [hsource]
  | conditional c =>
      simp only [renameLabel, held, List.any_eq_true, beq_iff_eq, List.mem_map, List.mem_filterMap,
        exists_exists_and_eq_and, Reference.label?, Option.some.injEq, exists_eq_right]

theorem renameLabel_eq_self_iff {old new : String} (hold : old ≠ "") {b : Block} :
    (b.renameLabel old new).1 = b <-> old = new ∨ ∀ r ∈ b.held, r.label? ≠ some old := by
  constructor
  · intro h
    by_contra hnot
    rw [not_or] at hnot
    apply hnot.2
    intro r hr hl
    rcases mem_held_renameLabel (h.symm ▸ hr) hl with heq | ⟨hother, -⟩
    · exact hnot.1 heq
    · exact hother rfl
  · intro h
    rw [renameLabel_of_ne_empty hold]
    apply mapLabels_eq_self
    intro r hr l hl
    rcases h with rfl | hnone
    · by_cases heq : l = old <;> simp [Label.moved, heq]
    · have hother : l ≠ old := fun heq => hnone r hr (heq ▸ hl)
      rw [Label.moved, if_neg hother]

/-!
# The tables agree
-/

/-- The references that do not stay are cleared, and nothing else is changed. -/
structure Clears (b : Block) (keep : String -> Bool) (answer : Block × Bool) : Prop where
  held : answer.1.references.map Prod.snd =
    (b.references.map Prod.snd).filter (Reference.stays keep)
  loopOver : answer.1.key? .loopOver =
    (b.key? .loopOver).filter fun key => (Reference.ofKey key).stays keep
  mergeLabel : ∀ i, answer.1.key? (.mergeLabel i) = (b.key? (.mergeLabel i)).filter keep
  frame : answer.1.frame = b.frame
  report : answer.2 <-> ∃ x ∈ b.references, x.2.stays keep = false
  changed : answer.1 ≠ b <-> ∃ x ∈ b.references, x.2.stays keep = false

/-- The references to one label are references to another, and nothing else is changed.  The answer
says that there was one, also when the labels are the same and the block is left as it was. -/
structure Repoints (b : Block) (old new : String) (answer : Block × Bool) : Prop where
  references : answer.1.references =
    b.references.map fun x => (x.1, x.2.mapLabel (Label.moved old new))
  frame : answer.1.frame = b.frame
  report : answer.2 <-> ∃ x ∈ b.references, x.2.label? = some old
  changed : answer.1 ≠ b <-> old ≠ new ∧ ∃ x ∈ b.references, x.2.label? = some old

theorem exists_mem_references {p : Reference -> Prop} {b : Block} :
    (∃ x ∈ b.references, p x.2) <-> ∃ r ∈ b.held, p r := by
  rw [← b.map_references]
  simp only [List.mem_map, exists_exists_and_eq_and]

theorem clears_retainLabels (keep : String -> Bool) (b : Block) :
    b.Clears keep (b.retainLabels keep) where
  held := by
    rw [map_references, map_references, held_retainLabels]
  loopOver := by
    rw [retainLabels_eq_rekey, key?_loopOver_rekey rfl, funext (keepsKey_eq keep)]
  mergeLabel := by
    intro i
    rw [retainLabels_eq_rekey, key?_mergeLabel_rekey rfl]
  frame := by
    rw [retainLabels_eq_rekey, frame_rekey]
  report := by
    rw [exists_mem_references (p := fun r => r.stays keep = false), retainLabels_snd]
  changed := by
    rw [exists_mem_references (p := fun r => r.stays keep = false), ne_eq,
      retainLabels_eq_self_iff]
    simp only [not_forall, exists_prop, Bool.not_eq_true]

theorem repoints_renameLabel {old new : String} (hold : old ≠ "") (hnew : new ≠ "") (b : Block) :
    b.Repoints old new (b.renameLabel old new) where
  references := by
    rw [renameLabel_of_ne_empty hold, references_mapLabels (Label.moved_ne_empty hnew)]
  frame := by
    rw [renameLabel_of_ne_empty hold, mapLabels_eq_rekey, frame_rekey]
  report := by
    rw [exists_mem_references (p := fun r => r.label? = some old), renameLabel_snd hold]
  changed := by
    rw [exists_mem_references (p := fun r => r.label? = some old), ne_eq,
      renameLabel_eq_self_iff hold]
    simp only [not_or, not_forall, exists_prop, not_not]

/-- The list of references, their clearing and their renaming are about the same fields. -/
theorem lists_clears_and_repoints (b : Block) :
    b.Lists b.references ∧
    (∀ keep, b.Clears keep (b.retainLabels keep)) ∧
    ∀ old new, old ≠ "" -> new ≠ "" -> b.Repoints old new (b.renameLabel old new) :=
  ⟨b.lists_references, fun keep => clears_retainLabels keep b,
    fun _ _ hold hnew => repoints_renameLabel hold hnew b⟩

/-- A request whose keys end in the ending of an output more or less often. -/
def request : Block :=
  leaf (.httpRequest
    { url := "https://example.com"
      parameterKeys := ["tally_output", "url", "_output", "tally_output_output", "tally_output"] })

theorem lists_clears_and_repoints_request :
    "tally" ≠ "" ∧ "sum" ≠ "" ∧ request.Repoints "tally" "sum" (request.renameLabel "tally" "sum") ∧
      (request.renameLabel "tally" "sum").1.references =
        [(.parameterKey 0, .output "sum"), (.parameterKey 1, .parameter "url"),
         (.parameterKey 2, .parameter "_output"), (.parameterKey 3, .output "tally_output"),
         (.parameterKey 4, .output "sum")] := by
  have hold : "tally" ≠ "" := by decide
  have hnew : "sum" ≠ "" := by decide
  have hrepoints := (lists_clears_and_repoints request).2.2 "tally" "sum" hold hnew
  refine ⟨hold, hnew, hrepoints, ?_⟩
  rw [hrepoints.references]
  decide

end Block
end Workflow
