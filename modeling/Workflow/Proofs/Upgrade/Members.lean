import Workflow.Definition.Upgrade
import Workflow.Proofs.Table

/-!
# Members of an object

What setting, erasing and moving a member does to the member of each key.  A key may be there
several times; setting its member makes all of them agree.
-/

namespace Workflow

open Json

section Members

variable {key k : String} {v u : Json} {ms : List (String × Json)}

theorem lookup_setMember (key : String) (v : Json) (ms : List (String × Json)) (k : String) :
    (setMember key v ms).lookup k = if k = key then some v else ms.lookup k := by
  have hmap : ∀ ms : List (String × Json),
      (ms.map fun m => if m.1 == key then (m.1, v) else m).lookup k =
        if k = key then (ms.lookup key).map fun _ => v else ms.lookup k := by
    intro ms
    induction ms with
    | nil => simp
    | cons m rest ih =>
        obtain ⟨j, u⟩ := m
        rw [List.map_cons, lookup_cons_pair, lookup_cons_pair]
        by_cases hj : j = key <;> by_cases hk : k = key <;> by_cases hjk : k = j <;>
          simp_all [lookup_cons_pair]
  unfold setMember
  split
  · next hany =>
      have hfound : ms.lookup key ≠ none := by
        rw [lookup_ne_none_iff]
        simpa using hany
      rw [hmap]
      cases hlookup : ms.lookup key with
      | none => exact absurd hlookup hfound
      | some u => rfl
  · exact lookup_insertEntry key k v ms

theorem lookup_eraseMember (key : String) (ms : List (String × Json)) (k : String) :
    (eraseMember key ms).lookup k = if k = key then none else ms.lookup k := by
  rw [eraseMember, lookup_filter_key (fun k => k != key)]
  by_cases h : k = key <;> simp [h]

theorem mem_setMember (h : (k, u) ∈ setMember key v ms) :
    (k = key ∧ u = v) ∨ (k ≠ key ∧ (k, u) ∈ ms) := by
  unfold setMember at h
  split at h
  · obtain ⟨⟨j, x⟩, hmem, heq⟩ := List.mem_map.1 h
    by_cases hj : j = key
    · simp only [hj, beq_self_eq_true, if_true, Prod.mk.injEq] at heq
      exact Or.inl ⟨heq.1.symm, heq.2.symm⟩
    · simp only [beq_eq_false_iff_ne.2 hj, Bool.false_eq_true, if_false, Prod.mk.injEq] at heq
      obtain ⟨rfl, rfl⟩ := heq
      exact Or.inr ⟨hj, hmem⟩
  · next hany =>
      rcases mem_insertEntry h with heq | hmem
      · cases heq
        exact Or.inl ⟨rfl, rfl⟩
      · refine Or.inr ⟨fun hk => hany ?_, hmem⟩
        exact List.any_eq_true.2 ⟨_, hmem, beq_iff_eq.2 hk⟩

namespace Upgrade

theorem lookup_setIfSome (key : String) (o : Option Json) (ms : List (String × Json)) (k : String) :
    (setIfSome key o ms).lookup k = if k = key then o.or (ms.lookup key) else ms.lookup k := by
  cases o with
  | none =>
      by_cases hk : k = key <;> simp [setIfSome, hk]
  | some v => exact lookup_setMember key v ms k

theorem lookup_moveMember {source target : String} (hne : source ≠ target)
    (ms : List (String × Json)) (k : String) :
    (moveMember source target ms).lookup k =
      if k = target then (ms.lookup source).or (ms.lookup target)
      else if k = source then none else ms.lookup k := by
  unfold moveMember
  cases hsource : ms.lookup source with
  | none =>
      by_cases hk : k = target
      · simp [hk]
      · by_cases hk' : k = source <;> simp [hk, hk', hsource, hne]
  | some v => simp only [lookup_setMember, lookup_eraseMember, Option.some_or]

/-!
# Members that agree

A member that is there several times is the same each time, as far as migrations set it.
-/

/-- Every member with the key is the one that is found. -/
def Uniform (key : String) (ms : List (String × Json)) : Prop :=
  ∀ v, (key, v) ∈ ms -> ms.lookup key = some v

theorem uniform_of_lookup (h : ms.lookup key = none) : Uniform key ms := by
  intro v hv
  exact absurd h (lookup_ne_none_iff.2 (List.mem_map_of_mem hv))

theorem uniform_setMember (h : key ≠ k -> Uniform key ms) : Uniform key (setMember k v ms) := by
  intro u hu
  rw [lookup_setMember]
  rcases mem_setMember hu with ⟨rfl, rfl⟩ | ⟨hne, hmem⟩
  · rw [if_pos rfl]
  · rw [if_neg hne]
    exact h hne u hmem

theorem uniform_eraseMember (h : Uniform key ms) : Uniform key (eraseMember k ms) := by
  intro u hu
  obtain ⟨hmem, hne⟩ := List.mem_filter.1 hu
  rw [lookup_eraseMember, if_neg (bne_iff_ne.1 hne)]
  exact h u hmem

theorem uniform_moveMember (h : Uniform key ms) (source target : String) :
    Uniform key (moveMember source target ms) := by
  unfold moveMember
  split
  · exact uniform_setMember fun _ => uniform_eraseMember h
  · exact h

theorem uniform_setIfSome {o : Option Json} (h : Uniform key ms) :
    Uniform key (setIfSome k o ms) := by
  cases o with
  | none => exact h
  | some v => exact uniform_setMember fun _ => h

theorem uniform_setIfSome_self {o : Option Json} (h : o = none -> ms.lookup key = none) :
    Uniform key (setIfSome key o ms) := by
  cases o with
  | none => exact uniform_of_lookup (h rfl)
  | some v => exact uniform_setMember fun hne => absurd rfl hne

theorem uniform_moveMember_target {source : String} (h : ms.lookup source ≠ none) :
    Uniform key (moveMember source key ms) := by
  unfold moveMember
  split
  · exact uniform_setMember fun hne => absurd rfl hne
  · exact absurd ‹_› h

theorem uniform_apply (h : Uniform key ms) (change : Change) : Uniform key (change.apply ms) := by
  cases change with
  | keep => exact h
  | task kind => exact uniform_setMember fun _ => uniform_setMember fun _ => h
  | login => exact uniform_setMember fun _ => h
  | loop =>
      exact uniform_moveMember (uniform_moveMember (uniform_setMember fun _ => h) _ _) _ _

theorem setMember_eq_self (h : Uniform key ms) (hv : ms.lookup key = some v) :
    setMember key v ms = ms := by
  have hany : ms.any (fun m => m.1 == key) = true := by
    have hmem := lookup_ne_none_iff.1 (hv ▸ Option.some_ne_none v)
    simpa using hmem
  rw [setMember, if_pos hany]
  refine (List.map_congr_left fun m hm => ?_).trans (List.map_id ms)
  split
  · next hkey =>
      obtain ⟨j, u⟩ := m
      rw [beq_iff_eq] at hkey
      dsimp only at hkey
      subst hkey
      cases (h u hm).symm.trans hv
      rfl
  · rfl

theorem setIfSome_eq_self (h : Uniform key ms) : setIfSome key (ms.lookup key) ms = ms := by
  cases hv : ms.lookup key with
  | none => rfl
  | some v => exact setMember_eq_self h hv

/-!
# Changes of members
-/

namespace Change

/-- What is found under the key after a change, from the members before it. -/
def former (ms : List (String × Json)) (key : String) : Change -> Option Json
  | keep => ms.lookup key
  | task kind =>
      if key = "block_type" then some (str "task")
      else if key = "task_kind" then some (str kind)
      else ms.lookup key
  | login => if key = "block_type" then some (str "login") else ms.lookup key
  | loop =>
      if key = "block_type" then some (str "loop")
      else if key = "children" then (ms.lookup "loop_blocks").or (ms.lookup "children")
      else if key = "loop_blocks" then none
      else if key = "loop_over" then
        (ms.lookup "loop_over_parameter_key").or (ms.lookup "loop_over")
      else if key = "loop_over_parameter_key" then none
      else ms.lookup key

theorem lookup_apply (change : Change) (ms : List (String × Json)) (key : String) :
    (change.apply ms).lookup key = change.former ms key := by
  cases change with
  | keep => rfl
  | task kind =>
      simp only [apply, former, lookup_setMember]
      by_cases h : key = "block_type" <;> simp [h]
  | login => exact lookup_setMember _ _ _ _
  | loop =>
      simp only [apply, former]
      rw [lookup_moveMember (by decide), lookup_moveMember (by decide),
        lookup_moveMember (by decide), lookup_moveMember (by decide)]
      simp only [lookup_setMember]
      by_cases htype : key = "block_type"
      · simp [htype]
      · by_cases hchildren : key = "children"
        · simp [hchildren]
        · by_cases hblocks : key = "loop_blocks"
          · simp [hblocks]
          · by_cases hover : key = "loop_over" <;> simp [htype, hchildren, hblocks, hover]

theorem former_loop_children (ms : List (String × Json)) :
    Change.loop.former ms "children" =
      (ms.lookup "loop_blocks").or (ms.lookup "children") := by
  simp [former]

theorem former_branches (change : Change) (ms : List (String × Json)) :
    change.former ms "branches" = ms.lookup "branches" := by
  cases change <;> simp [former]

end Change

end Upgrade
end Members
end Workflow
