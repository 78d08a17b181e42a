import Workflow.Edit.Command
import Workflow.Proofs.Shown.Graph

/-!
# Commands and the branches of a conditional

A conditional may have no branches, have one twice or show one that it does not have.  Each of
these defects is begun and ended by some commands only.
-/

namespace Workflow
namespace Command

/-- The ids of the branches and the one that is shown, as a command changes them. -/
def rebranch (k : Command) (id : String) (v : List String × String) : List String × String :=
  match k with
  | .setActiveBranch i b => if i = id ∧ b ∈ v.1 then (v.1, b) else v
  | .addBranch i b => if i = id ∧ b.id ∉ v.1 then (v.1 ++ [b.id], v.2) else v
  | .removeBranch i b =>
      if i = id ∧ b ∈ v.1 ∧ 1 < v.1.length then
        (v.1.filter (· ≠ b), if v.2 = b then (v.1.filter (· ≠ b)).headD b else v.2)
      else v
  | _ => v

/-- The command gives a conditional a branch that it does not have. -/
def Declares (k : Command) (id branch : String) (c : Conditional) : Prop :=
  ∃ b, k = .addBranch id b ∧ b.id = branch ∧ branch ∉ c.branchIds

/-- The command shows a branch of a conditional. -/
def Switches (k : Command) (id : String) (c : Conditional) : Prop :=
  ∃ branch ∈ c.branchIds, k = .setActiveBranch id branch

/-- The command takes a branch away from a conditional, which is not the last one. -/
def TakesBack (k : Command) (id branch : String) (c : Conditional) : Prop :=
  k = .removeBranch id branch ∧ branch ∈ c.branchIds ∧ 1 < c.branchIds.length

/-- The command takes away the id that all branches of a conditional have. -/
def Strips (k : Command) (id : String) (c : Conditional) : Prop :=
  ∃ branch, k.TakesBack id branch c ∧ ∀ i ∈ c.branchIds, i = branch

theorem Strips.exists_eq {k : Command} {id : String} {c : Conditional} (h : k.Strips id c) :
    ∃ branch, k = .removeBranch id branch := by
  rcases h with ⟨branch, ⟨hk, -⟩, -⟩
  exact ⟨branch, hk⟩

/-!
# What becomes of a defect
-/

variable {k : Command} {id : String} {c : Conditional}

/-- How a command changes the branches of the conditional with an id. -/
inductive Changes (k : Command) (id : String) (c : Conditional) : Prop where
  | switches {branch : String} : k = .setActiveBranch id branch -> branch ∈ c.branchIds ->
      k.rebranch id c.branching = (c.branchIds, branch) -> Changes k id c
  | declares {b : Branch} : k = .addBranch id b -> b.id ∉ c.branchIds ->
      k.rebranch id c.branching = (c.branchIds ++ [b.id], c.active) -> Changes k id c
  | takesBack {branch : String} : k.TakesBack id branch c ->
      k.rebranch id c.branching = (c.branchIds.filter (· ≠ branch),
        if c.active = branch then (c.branchIds.filter (· ≠ branch)).headD branch else c.active) ->
      Changes k id c
  | nothing : k.rebranch id c.branching = (c.branchIds, c.active) -> ¬ k.Switches id c ->
      (∀ branch, ¬ k.Declares id branch c) -> (∀ branch, ¬ k.TakesBack id branch c) ->
      Changes k id c

theorem changes (k : Command) (id : String) (c : Conditional) : k.Changes id c := by
  cases k with
  | setActiveBranch i branch =>
      by_cases hand : i = id ∧ branch ∈ c.branchIds
      · exact .switches (hand.1 ▸ rfl) hand.2 (if_pos hand)
      · refine .nothing (if_neg hand) ?_ (by simp [Declares]) (by simp [TakesBack])
        intro h
        rcases h with ⟨b, hmem, heq⟩
        cases heq
        exact hand ⟨rfl, hmem⟩
  | addBranch i b =>
      by_cases hand : i = id ∧ b.id ∉ c.branchIds
      · exact .declares (hand.1 ▸ rfl) hand.2 (if_pos hand)
      · refine .nothing (if_neg hand) (by simp [Switches]) ?_ (by simp [TakesBack])
        intro branch h
        rcases h with ⟨b', heq, rfl, hnew⟩
        cases heq
        exact hand ⟨rfl, hnew⟩
  | removeBranch i branch =>
      by_cases hand : i = id ∧ branch ∈ c.branchIds ∧ 1 < c.branchIds.length
      · exact .takesBack ⟨hand.1 ▸ rfl, hand.2⟩ (if_pos hand)
      · refine .nothing (if_neg hand) (by simp [Switches]) (by simp [Declares]) ?_
        intro branch' h
        rcases h with ⟨heq, hmem⟩
        cases heq
        exact hand ⟨rfl, hmem⟩
  | _ => exact .nothing rfl (by simp [Switches]) (by simp [Declares]) (by simp [TakesBack])

theorem rebranch_eq_nil_iff : (k.rebranch id c.branching).1 = [] <->
    k.Strips id c ∨ c.branchIds = [] ∧ ¬ ∃ b, k.Declares id b c := by
  cases k.changes id c with
  | switches hk hmem heq =>
      subst hk
      simp [heq, Strips, TakesBack, Declares]
  | @declares b hk hnew heq =>
      subst hk
      rw [heq]
      constructor
      · intro h
        simp at h
      · intro h
        rcases h with ⟨branch, ⟨hk, -⟩, -⟩ | ⟨-, hnot⟩
        · cases hk
        · exact absurd ⟨b.id, b, rfl, rfl, hnew⟩ hnot
  | @takesBack branch htakes heq =>
      rcases htakes with ⟨rfl, hmem, hmany⟩
      rw [heq]
      have hne : c.branchIds ≠ [] := List.ne_nil_of_mem hmem
      simp [Strips, TakesBack, hmem, hmany, hne, List.filter_eq_nil_iff]
  | nothing heq hswitch hdeclare htake =>
      simp [heq, Strips, htake, hdeclare]

theorem count_rebranch_iff {b : String} : 1 < (k.rebranch id c.branching).1.count b <->
    1 < c.branchIds.count b ∧ ¬ k.TakesBack id b c := by
  cases k.changes id c with
  | switches hk hmem heq =>
      subst hk
      simp [heq, TakesBack]
  | @declares r hk hnew heq =>
      subst hk
      have hzero : c.branchIds.count r.id = 0 := List.count_eq_zero.2 hnew
      simp only [heq, List.count_append, List.count_singleton, TakesBack, reduceCtorEq, false_and,
        not_false_iff, and_true]
      split
      · next h =>
          cases beq_iff_eq.1 h
          omega
      · rfl
  | @takesBack branch htakes heq =>
      rcases htakes with ⟨rfl, hmem, hmany⟩
      rw [heq]
      by_cases hb : b = branch
      · subst hb
        have hzero : (c.branchIds.filter (· ≠ b)).count b = 0 := List.count_eq_zero.2 (by simp)
        apply iff_of_false
        · rw [hzero]
          exact Nat.not_lt_zero 1
        · exact fun hand => hand.2 ⟨rfl, hmem, hmany⟩
      · simp [TakesBack, hb, Ne.symm hb, List.count_filter]
  | nothing heq hswitch hdeclare htake =>
      simp [heq, htake]

theorem not_mem_rebranch_iff :
    (k.rebranch id c.branching).2 ∉ (k.rebranch id c.branching).1 <->
      k.Strips id c ∨ c.active ∉ c.branchIds ∧ ¬ (k.Switches id c ∨ k.Declares id c.active c) := by
  cases k.changes id c with
  | @switches branch hk hmem heq =>
      subst hk
      simp [heq, hmem, Strips, TakesBack, Switches, Declares]
  | @declares b hk hnew heq =>
      subst hk
      have hdeclares : (addBranch id b).Declares id c.active c <-> b.id = c.active := by
        constructor
        · intro h
          rcases h with ⟨b', heq, hid, -⟩
          cases heq
          exact hid
        · intro h
          exact ⟨b, rfl, h, h ▸ hnew⟩
      simp [heq, hdeclares, Strips, TakesBack, Switches, eq_comm]
  | @takesBack branch htakes heq =>
      rcases htakes with ⟨rfl, hmem, hmany⟩
      have hstrips : (removeBranch id branch).Strips id c <-> ∀ i ∈ c.branchIds, i = branch := by
        simp [Strips, TakesBack, hmem, hmany]
      simp only [heq, hstrips, Switches, Declares, reduceCtorEq, and_false, false_and,
        exists_false, or_false, not_false_iff, and_true]
      by_cases hactive : c.active = branch
      · rw [if_pos hactive, hactive]
        cases hrest : c.branchIds.filter (· ≠ branch) with
        | nil =>
            rw [List.filter_eq_nil_iff] at hrest
            have hall : ∀ i ∈ c.branchIds, i = branch := by simpa using hrest
            exact iff_of_true (by simp) (Or.inl hall)
        | cons b bs =>
            have hb : b ∈ c.branchIds.filter (· ≠ branch) := hrest ▸ List.mem_cons_self
            have hb := List.mem_filter.1 hb
            refine iff_of_false (by simp) ?_
            intro h
            rcases h with hall | hnot
            · exact of_decide_eq_true hb.2 (hall b hb.1)
            · exact hnot hmem
      · rw [if_neg hactive, List.mem_filter, decide_eq_true hactive, and_iff_left rfl]
        constructor
        · exact Or.inr
        · intro h
          rcases h with hall | hnot
          · exact fun h => hactive (hall _ h)
          · exact hnot
  | nothing heq hswitch hdeclare htake =>
      simp [heq, Strips, htake, hdeclare, hswitch]

end Command
end Workflow
