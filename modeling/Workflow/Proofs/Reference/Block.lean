import Workflow.Block.Reference

/-!
# What a block refers to

The references of a block are taken here without the fields that hold them.  Clearing
keeps those of a list that depend on no label or on one that is kept, and renaming leaves
no reference to the old label.
-/

namespace Workflow

/-!
# Output keys
-/

namespace OutputKey

theorem dropEnding?_eq_some {cs ending rest : List Char} :
    dropEnding? cs ending = some rest <-> cs = rest ++ ending := by
  rw [dropEnding?]
  constructor
  · intro h
    split at h
    · next hsuffix =>
        obtain ⟨front, rfl⟩ := List.isSuffixOf_iff_suffix.1 hsuffix
        simpa using h
    · cases h
  · rintro rfl
    simp

theorem label?_eq_some {key l : String} :
    label? key = some l <-> l ≠ "" ∧ key = ofLabel l := by
  have hkey : ∀ cs : List Char, dropEnding? key.toList ending.toList = some cs <->
      key = ofLabel (String.ofList cs) := by
    intro cs
    rw [dropEnding?_eq_some, ofLabel, ← String.toList_inj, String.toList_append,
      String.toList_ofList]
  rw [label?]
  constructor
  · intro h
    split at h
    · next c cs hdrop =>
        cases h
        exact ⟨by simp [← String.toList_inj], (hkey _).1 hdrop⟩
    · cases h
  · rintro ⟨hl, hkeyl⟩
    have hdrop : dropEnding? key.toList ending.toList = some l.toList :=
      (hkey _).2 (by rwa [String.ofList_toList])
    cases hchars : l.toList with
    | nil => exact absurd (String.toList_inj.1 hchars) hl
    | cons c cs =>
        rw [hdrop, hchars]
        simp [← hchars]

theorem ofLabel_injective {l l' : String} (h : ofLabel l = ofLabel l') : l = l' := by
  have hchars := congrArg String.toList h
  simp only [ofLabel, String.toList_append, List.append_cancel_right_eq] at hchars
  exact String.toList_inj.1 hchars

end OutputKey

namespace Reference

theorem label?_ofKey (key : String) : (ofKey key).label? = OutputKey.label? key := by
  rw [ofKey]
  cases OutputKey.label? key <;> rfl

/-- Whether a reference depends on no label, or on one that is kept. -/
def stays (keep : String -> Bool) (r : Reference) : Bool :=
  match r.label? with
  | some l => keep l
  | none => true

end Reference

namespace Leaf

theorem kind_mapKeys (f : List String -> List String) (l : Leaf) : (l.mapKeys f).kind = l.kind := by
  cases l <;> rfl

theorem parameterKeys_mapKeys {f : List String -> List String} (hf : f [] = []) (l : Leaf) :
    (l.mapKeys f).parameterKeys = f l.parameterKeys := by
  cases l <;> first | rfl | exact hf.symm

end Leaf

namespace Block

/-!
# The list of references
-/

/-- What a block refers to, in the order of its fields. -/
def held : Block -> List Reference
  | leaf l => l.parameterKeys.map .ofKey
  | loop a => a.loopOver.toList.map .ofKey
  | conditional c => (c.branches.filterMap Branch.mergeLabel).map .label

theorem map_references (b : Block) : b.references.map Prod.snd = b.held := by
  cases b with
  | leaf l =>
      have hkeys : l.parameterKeys.zipIdx.map (Reference.ofKey ∘ Prod.fst) =
          l.parameterKeys.map .ofKey := by
        rw [← List.map_map, List.zipIdx_map_fst]
      simp only [references, held, List.map_map]
      exact hkeys
  | loop a => cases h : a.loopOver <;> simp [references, held, h]
  | conditional c =>
      have hlabels : c.branches.zipIdx.filterMap (Branch.mergeLabel ∘ Prod.fst) =
          c.branches.filterMap Branch.mergeLabel := by
        rw [← List.filterMap_map, List.zipIdx_map_fst]
      rw [references, held, ← hlabels, List.map_filterMap, List.map_filterMap]
      congr 1
      funext x
      rw [Option.map_map]
      rfl

theorem held_fresh (k : Kind) : (fresh k).held = [] := by
  cases k <;> rfl

/-!
# Clearing
-/

theorem keepsKey_eq (keep : String -> Bool) (key : String) :
    keepsKey keep key = (Reference.ofKey key).stays keep := by
  cases hlabel : OutputKey.label? key <;>
    simp only [keepsKey, Reference.stays, Reference.label?_ofKey, hlabel]

theorem held_retainLabels (keep : String -> Bool) (b : Block) :
    (b.retainLabels keep).1.held = b.held.filter (Reference.stays keep) := by
  cases b with
  | leaf l =>
      simp only [retainLabels, held]
      rw [Leaf.parameterKeys_mapKeys rfl, List.filter_map]
      congr 2
      funext key
      exact keepsKey_eq keep key
  | loop a =>
      cases h : a.loopOver with
      | none => simp [retainLabels, held, h]
      | some key =>
          cases hkeep : keepsKey keep key with
          | true =>
              rw [keepsKey_eq] at hkeep
              simp [retainLabels, held, h, keepsKey_eq, hkeep]
          | false =>
              rw [keepsKey_eq] at hkeep
              simp [retainLabels, held, h, keepsKey_eq, hkeep]
  | conditional c =>
      simp only [retainLabels, held, List.filterMap_map]
      induction c.branches with
      | nil => rfl
      | cons b rest ih =>
          cases h : b.mergeLabel with
          | none =>
              have hkeep : keepsMerge keep b = true := by
                rw [keepsMerge, h]
              rw [List.filterMap_cons_none (by simp [hkeep, h]), List.filterMap_cons_none h]
              exact ih
          | some l =>
              have hkeep : keepsMerge keep b = keep l := by
                rw [keepsMerge, h]
              rw [List.filterMap_cons_some h, List.map_cons, List.filter_cons]
              cases hl : keep l with
              | true =>
                  rw [List.filterMap_cons_some (b := l) (by simp [hkeep, hl, h]), List.map_cons, ih]
                  simp [Reference.stays, Reference.label?, hl]
              | false =>
                  rw [List.filterMap_cons_none (by simp [hkeep, hl]), ih]
                  simp [Reference.stays, Reference.label?, hl]

/-!
# Renaming
-/

theorem mem_held_renameLabel {old new l : String} {b : Block} {r : Reference}
    (hr : r ∈ (b.renameLabel old new).1.held) (hl : r.label? = some l) :
    l = new ∨ (l ≠ old ∧ r ∈ b.held) := by
  have hkey : ∀ {key : String}, (Reference.ofKey key).label? = some l -> key = OutputKey.ofLabel l :=
    fun h => (OutputKey.label?_eq_some.1 (Reference.label?_ofKey _ ▸ h)).2
  cases b with
  | leaf a =>
      simp only [renameLabel, held] at hr
      rw [Leaf.parameterKeys_mapKeys rfl, List.map_map] at hr
      obtain ⟨key, hmem, rfl⟩ := List.mem_map.1 hr
      rw [Function.comp_apply] at hl ⊢
      split at hl
      · exact Or.inl (OutputKey.ofLabel_injective (hkey hl)).symm
      · next hne =>
          rw [if_neg hne]
          refine Or.inr ⟨?_, List.mem_map_of_mem hmem⟩
          rintro rfl
          exact hne (hkey hl)
  | loop a =>
      simp only [renameLabel] at hr
      split at hr
      · simp only [held, Option.toList_some, List.map_cons, List.map_nil,
          List.mem_singleton] at hr
        subst hr
        exact Or.inl (OutputKey.ofLabel_injective (hkey hl)).symm
      · next hne =>
          refine Or.inr ⟨?_, hr⟩
          rintro rfl
          obtain ⟨key, hmem, rfl⟩ := List.mem_map.1 hr
          exact hne (hkey hl ▸ Option.mem_toList.1 hmem)
  | conditional c =>
      simp only [renameLabel, held, List.filterMap_map] at hr
      obtain ⟨m, hmem, rfl⟩ := List.mem_map.1 hr
      obtain rfl : m = l := Option.some.inj hl
      obtain ⟨x, hx, hm⟩ := List.mem_filterMap.1 hmem
      rw [Function.comp_apply] at hm
      split at hm
      · exact Or.inl (Option.some.inj hm).symm
      · next hne =>
          refine Or.inr ⟨?_, List.mem_map_of_mem (List.mem_filterMap.2 ⟨x, hx, hm⟩)⟩
          rintro rfl
          exact hne hm

end Block
end Workflow
