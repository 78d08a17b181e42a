import Workflow.Proofs.Conversion.Labels
import Workflow.Proofs.Definition.Reading
import Workflow.Proofs.Upgrade.Walk

/-!
# Definitions that can be imported

A definition can be imported when it is at the current version and its labels are all different.
What is loaded from a text is at the current version whatever version the text was written at, so
only its labels are left to stop it.
-/

namespace Workflow
namespace Definition

open Json Upgrade

/-!
# The version of a loaded definition
-/

theorem lookup_version_of_ofJson? {ms : Members} {d : Definition} (h : ofJson? (obj ms) = some d) :
    required ms "version" word32? = some d.version := by
  simp only [ofJson?, record?, recordWith?, Option.bind_eq_bind, Option.bind_eq_some_iff] at h
  obtain ⟨_, hms, version, hversion, title, -, parameters, -, blocks, -, hd⟩ := h
  cases hms
  cases hd
  exact hversion

theorem required_version {ms : Members}
    (h : ms.lookup "version" = some (int currentVersion.toNat)) :
    required ms "version" word32? = some currentVersion := by
  rw [required, h, Option.bind_some]
  exact word32?_ofWord32 currentVersion

theorem version?_eq_some {v : Json} {n : Nat} (h : version? v = some n) :
    ∃ ms, v = obj ms ∧ ms.lookup "version" = some (int n) := by
  unfold version? at h
  cases v with
  | obj ms =>
      split at h
      · next k hk =>
          split at h
          · next hpos =>
              cases h
              rw [Int.toNat_of_nonneg hpos]
              exact ⟨ms, rfl, hk⟩
          · cases h
      · cases h
  | _ => cases h

theorem lookup_version_of_upgrade {v w : Json} {version n : UInt32}
    (hversion : version? v = some version.toNat) (h : upgrade v version = .ok (w, n)) :
    ∃ ms, w = obj ms ∧ ms.lookup "version" = some (int currentVersion.toNat) := by
  by_cases hcurrent : version = currentVersion
  · rw [upgrade, if_pos hcurrent] at h
    cases h
    subst hcurrent
    exact version?_eq_some hversion
  · have hformer : version = 1 ∨ version = 2 := by
      by_contra hne
      rw [not_or] at hne
      rw [upgrade, if_neg hcurrent, migrations, if_neg hne.1, if_neg hne.2] at h
      cases h
    obtain ⟨_, _, ys, -, -, -, rfl, -⟩ := (upgrade_eq_ok hformer).1 h
    refine ⟨_, rfl, ?_⟩
    rw [lookup_setMember, if_pos rfl]

theorem version_of_load? {text : String} {d : Definition} (h : load? text = .ok d) :
    d.version = currentVersion := by
  obtain ⟨v, version, w, n, hversion, hupgrade, hread⟩ := exists_of_load? h
  obtain ⟨ms, rfl, hms⟩ := lookup_version_of_upgrade hversion hupgrade
  have hsome := (lookup_version_of_ofJson? hread).symm.trans (required_version hms)
  exact Option.some.inj hsome

/-!
# Imports
-/

theorem toDraft?_cases {d : Definition} (s : Supply) (hversion : d.version = currentVersion) :
    (∃ g, d.toDraft? s = .ok g) ∨ ∃ label, d.toDraft? s = .error (.duplicateLabel label) := by
  cases h : d.toDraft? s with
  | ok g => exact Or.inl ⟨g, rfl⟩
  | error e =>
      obtain ⟨_, x, _, -, -, -, rfl⟩ := (toDraft?_eq_error_iff hversion).1 h
      exact Or.inr ⟨x.label, rfl⟩

/-- A definition can be imported exactly when it is at the current version and no label comes
twice in it; at the current version an import stops at the first block in document order whose
label a block before it has, and whatever is loaded is at the current version. -/
theorem toDraft?_accepts (d : Definition) (s : Supply) :
    ((∃ g, d.toDraft? s = .ok g) <-> d.version = currentVersion ∧ d.labels.Nodup) ∧
    (d.version ≠ currentVersion -> d.toDraft? s = .error (.unsupportedVersion d.version)) ∧
    (d.version = currentVersion -> ∀ e, d.toDraft? s = .error e <->
      ∃ before x after, d.allBlocks = before ++ x :: after ∧
        (before.map Descriptor.label).Nodup ∧ x.label ∈ before.map Descriptor.label ∧
          e = .duplicateLabel x.label) ∧
    (∀ text, load? text = .ok d -> d.version = currentVersion ∧
      ((∃ g, d.toDraft? s = .ok g) ∨
        ∃ label, d.toDraft? s = .error (.duplicateLabel label))) := by
  refine ⟨exists_toDraft?_iff_labels d s, ?_, ?_, ?_⟩
  · intro hversion
    rw [toDraft?, if_pos hversion]
  · intro hversion e
    exact toDraft?_eq_error_iff hversion
  · intro text hload
    have hversion := version_of_load? hload
    exact ⟨hversion, toDraft?_cases s hversion⟩

end Definition
end Workflow
