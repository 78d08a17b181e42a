import Workflow.Edit.Attribute
import Workflow.Proofs.Reference.Clearing
import Workflow.Proofs.Reference.Dependents
import Workflow.Proofs.Reference.Referrers
import Workflow.Proofs.Validation

/-!
# Renaming what is referred to

A renaming of labels acts on every reference of a block where it stands.  Relabelling a block
is such a renaming, of one label to one that is free, and the renaming back undoes it when
nothing referred to the new label before.
-/

namespace Workflow

/-!
# Renamings
-/

/-- The renaming of one label; all others stay. -/
def Label.moved (old new label : String) : String :=
  if label = old then new else label

namespace Label

theorem moved_eq_iff {old new l m : String} :
    moved old new l = m <-> (l = old ∧ new = m) ∨ (l ≠ old ∧ l = m) := by
  by_cases h : l = old <;> simp [moved, h]

theorem moved_ne_empty {old new : String} (hnew : new ≠ "") :
    ∀ l, l ≠ "" -> moved old new l ≠ "" := by
  intro l hl hempty
  rcases moved_eq_iff.1 hempty with ⟨-, hempty⟩ | ⟨-, hempty⟩
  · exact hnew hempty
  · exact hl hempty

theorem moved_moved {old new l : String} (hl : l ≠ new) :
    moved new old (moved old new l) = l := by
  by_cases hold : l = old
  · simp [moved, hold]
  · simp [moved, hold, hl]

end Label

namespace Reference

def mapLabel (f : String -> String) : Reference -> Reference
  | output l => output (f l)
  | parameter key => parameter key
  | label l => label (f l)

@[simp] theorem label?_mapLabel (f : String -> String) (r : Reference) :
    (r.mapLabel f).label? = r.label?.map f := by
  cases r <;> rfl

end Reference

namespace OutputKey

/-- The key of the renamed label; the key of a parameter stays. -/
def mapLabel (f : String -> String) (key : String) : String :=
  match label? key with
  | some l => ofLabel (f l)
  | none => key

end OutputKey

namespace Block

/-- The block with every reference to a label renamed. -/
def mapLabels (f : String -> String) : Block -> Block
  | leaf l => leaf (l.mapKeys (List.map (OutputKey.mapLabel f)))
  | loop a => loop { a with loopOver := a.loopOver.map (OutputKey.mapLabel f) }
  | conditional c =>
      conditional { c with
        branches := c.branches.map fun b => { b with mergeLabel := b.mergeLabel.map f } }

end Block

/-!
# Renamed keys

A renaming must not give the empty label for another one, since no key refers to the empty
label.
-/

section Keys

variable {f f' : String -> String}

theorem OutputKey.mapLabel_of_label? {key l : String} (h : label? key = some l) :
    mapLabel f key = ofLabel (f l) := by
  rw [mapLabel, h]

theorem OutputKey.mapLabel_of_none {key : String} (h : label? key = none) :
    mapLabel f key = key := by
  rw [mapLabel, h]

theorem OutputKey.label?_ofLabel {l : String} (h : l ≠ "") : label? (ofLabel l) = some l :=
  label?_eq_some.2 ⟨h, rfl⟩

theorem OutputKey.label?_ne_empty {key l : String} (h : label? key = some l) : l ≠ "" :=
  (label?_eq_some.1 h).1

theorem OutputKey.label?_mapLabel (hf : ∀ l, l ≠ "" -> f l ≠ "") (key : String) :
    label? (mapLabel f key) = (label? key).map f := by
  cases h : label? key with
  | none => rw [mapLabel_of_none h, h, Option.map_none]
  | some l =>
      rw [mapLabel_of_label? h, Option.map_some, label?_ofLabel (hf l (label?_ne_empty h))]

theorem OutputKey.mapLabel_mapLabel (hf : ∀ l, l ≠ "" -> f l ≠ "") (key : String) :
    mapLabel f' (mapLabel f key) = mapLabel (f' ∘ f) key := by
  cases h : label? key with
  | none =>
      rw [mapLabel_of_none h, mapLabel_of_none h, mapLabel_of_none h]
  | some l =>
      have hmoved : label? (mapLabel f key) = some (f l) := by
        rw [label?_mapLabel hf, h, Option.map_some]
      rw [mapLabel_of_label? hmoved, mapLabel_of_label? h, Function.comp_apply]

theorem OutputKey.mapLabel_eq_self {key : String} (h : ∀ l, label? key = some l -> f l = l) :
    mapLabel f key = key := by
  cases hl : label? key with
  | none => exact mapLabel_of_none hl
  | some l => rw [mapLabel_of_label? hl, h l hl, (label?_eq_some.1 hl).2]

theorem Reference.ofKey_mapLabel (hf : ∀ l, l ≠ "" -> f l ≠ "") (key : String) :
    ofKey (OutputKey.mapLabel f key) = (ofKey key).mapLabel f := by
  unfold ofKey
  rw [OutputKey.label?_mapLabel hf]
  cases h : OutputKey.label? key with
  | none => rw [OutputKey.mapLabel_of_none h]; rfl
  | some l => rfl

theorem OutputKey.mapLabel_moved {old : String} (hold : old ≠ "") (new key : String) :
    (if key = ofLabel old then ofLabel new else key) = mapLabel (Label.moved old new) key := by
  by_cases hkey : key = ofLabel old
  · rw [if_pos hkey, hkey, mapLabel_of_label? (label?_ofLabel hold), Label.moved, if_pos rfl]
  · rw [if_neg hkey, mapLabel_eq_self]
    intro l hl
    have hne : l ≠ old := by
      intro heq
      exact hkey (heq ▸ (label?_eq_some.1 hl).2)
    rw [Label.moved, if_neg hne]

end Keys

/-!
# Renamed blocks
-/

namespace Block

variable {f f' : String -> String}

theorem references_mapLabels (hf : ∀ l, l ≠ "" -> f l ≠ "") (b : Block) :
    (b.mapLabels f).references = b.references.map fun x => (x.1, x.2.mapLabel f) := by
  cases b with
  | leaf l =>
      simp only [mapLabels, references]
      rw [Leaf.parameterKeys_mapKeys rfl, List.zipIdx_map, List.map_map, List.map_map]
      apply List.map_congr_left
      intro x hx
      simp only [Function.comp_apply, Prod.map_fst, Prod.map_snd, id_eq,
        Reference.ofKey_mapLabel hf]
  | loop a =>
      rcases a with ⟨loopOver, completeIfEmpty⟩
      cases loopOver with
      | none => rfl
      | some key =>
          simp only [mapLabels, references, Option.map_some, Reference.ofKey_mapLabel hf,
            List.map_cons, List.map_nil]
  | conditional c =>
      simp only [mapLabels, references]
      rw [List.zipIdx_map, List.filterMap_map, List.map_filterMap]
      congr 1
      funext x
      cases h : x.1.mergeLabel <;> simp [h, Reference.mapLabel]

theorem mapLabels_mapLabels (hf : ∀ l, l ≠ "" -> f l ≠ "") (b : Block) :
    (b.mapLabels f).mapLabels f' = b.mapLabels (f' ∘ f) := by
  have hkey : OutputKey.mapLabel f' ∘ OutputKey.mapLabel f = OutputKey.mapLabel (f' ∘ f) :=
    funext (OutputKey.mapLabel_mapLabel hf)
  cases b with
  | leaf l => simp only [mapLabels, Leaf.mapKeys_mapKeys, List.map_map, hkey]
  | loop a => simp only [mapLabels, Option.map_map, hkey]
  | conditional c =>
      simp only [mapLabels, List.map_map, Function.comp_def, Option.map_map]

theorem mapLabels_eq_self {b : Block} (h : ∀ r ∈ b.held, ∀ l, r.label? = some l -> f l = l) :
    b.mapLabels f = b := by
  have hkey : ∀ {key : String}, Reference.ofKey key ∈ b.held -> OutputKey.mapLabel f key = key := by
    intro key hmem
    apply OutputKey.mapLabel_eq_self
    intro l hl
    exact h _ hmem l ((Reference.label?_ofKey key).trans hl)
  cases b with
  | leaf l =>
      rw [mapLabels, Leaf.mapKeys_eq_self]
      apply (List.map_congr_left _).trans (List.map_id _)
      intro key hmem
      exact hkey (List.mem_map_of_mem hmem)
  | loop a =>
      rcases a with ⟨loopOver, completeIfEmpty⟩
      cases loopOver with
      | none => rfl
      | some key =>
          rw [mapLabels, Option.map_some, hkey (List.mem_map_of_mem (List.mem_singleton.2 rfl))]
  | conditional c =>
      have hbranches : (c.branches.map fun b => { b with mergeLabel := b.mergeLabel.map f }) =
          c.branches := by
        apply (List.map_congr_left _).trans (List.map_id _)
        intro x hx
        rcases x with ⟨id, name, expression, mergeLabel, isDefault⟩
        cases mergeLabel with
        | none => rfl
        | some l =>
            have hl : f l = l :=
              h (.label l) (List.mem_map_of_mem (List.mem_filterMap.2 ⟨_, hx, rfl⟩)) l rfl
            simp only [Option.map_some, hl, id_eq]
      rw [mapLabels, hbranches]

theorem renameLabel_conditional (old new : String) (c : Conditional) :
    ((conditional c).renameLabel old new).1 = (conditional c).mapLabels (Label.moved old new) := by
  simp only [renameLabel, mapLabels]
  congr 2
  apply List.map_congr_left
  intro x hx
  rcases x with ⟨id, name, expression, mergeLabel, isDefault⟩
  cases mergeLabel with
  | none => rfl
  | some l => by_cases hl : l = old <;> simp [Label.moved, hl]

/-- A block is renamed as a whole, though only the fields that hold the old label are looked at. -/
theorem renameLabel_of_ne_empty {old : String} (hold : old ≠ "") (new : String) (b : Block) :
    (b.renameLabel old new).1 = b.mapLabels (Label.moved old new) := by
  cases b with
  | leaf l => simp only [renameLabel, mapLabels, OutputKey.mapLabel_moved hold]
  | loop a =>
      rcases a with ⟨loopOver, completeIfEmpty⟩
      cases loopOver with
      | none => rfl
      | some first =>
          simp only [renameLabel, mapLabels, Option.map_some, Option.some.injEq,
            ← OutputKey.mapLabel_moved hold]
          split <;> rfl
  | conditional c => exact renameLabel_conditional old new c

theorem renameLabel_eq_mapLabels {old : String} (new : String) {b : Block}
    (h : b.dependsOn old) : (b.renameLabel old new).1 = b.mapLabels (Label.moved old new) := by
  rcases dependsOn_iff.1 h with ⟨r, hr, hl⟩
  have hkey : ∀ {key : String}, Reference.ofKey key = r -> old ≠ "" := by
    intro key heq
    rw [← heq, Reference.label?_ofKey] at hl
    exact OutputKey.label?_ne_empty hl
  cases b with
  | leaf l =>
      rcases List.mem_map.1 hr with ⟨key, -, heq⟩
      exact renameLabel_of_ne_empty (hkey heq) new _
  | loop a =>
      rcases List.mem_map.1 hr with ⟨key, -, heq⟩
      exact renameLabel_of_ne_empty (hkey heq) new _
  | conditional c => exact renameLabel_conditional old new c

theorem mapLabels_moved_eq_self {old : String} (new : String) {b : Block}
    (h : b.dependsOn old = false) : b.mapLabels (Label.moved old new) = b := by
  apply mapLabels_eq_self
  intro r hr l hl
  have hne : l ≠ old := by
    intro heq
    rw [dependsOn_iff.2 ⟨r, hr, heq ▸ hl⟩] at h
    cases h
  rw [Label.moved, if_neg hne]

end Block
end Workflow
