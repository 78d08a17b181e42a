import Mathlib.Logic.Relation
import Workflow.Proofs.Upgrade.Blocks
import Workflow.Proofs.Upgrade.Members

/-!
# Bodies before and after

How the list in a member is related to the list in the same member of another object, from how their
items are related.
-/

namespace Workflow

open Json

namespace Upgrade

/-!
# Relations between bodies
-/

section Bodies

variable (R : Json -> Json -> Prop)

/-- A body is missing before and after, or a list with its blocks related one to one. -/
inductive Body : Option Json -> Option Json -> Prop
  | missing : Body none none
  | list {vs ws : List Json} (items : List.Forall₂ R vs ws) :
      Body (some (arr vs)) (some (arr ws))

/-- A branch keeps all but its children; what is not an object is left alone. -/
inductive Branch : Json -> Json -> Prop
  | object {ms ns : List (String × Json)}
      (children : Body R (ms.lookup "children") (ns.lookup "children"))
      (fields : ∀ key, key ≠ "children" -> ns.lookup key = ms.lookup key)
      (uniform : Uniform "children" ns) :
      Branch (obj ms) (obj ns)
  | other {v : Json} (h : ∀ ms, v ≠ obj ms) : Branch v v

/-- The branches are related one to one; what is not a list is left alone. -/
inductive Branches : Option Json -> Option Json -> Prop
  | list {vs ws : List Json} (items : List.Forall₂ (Branch R) vs ws) :
      Branches (some (arr vs)) (some (arr ws))
  | other {o : Option Json} (h : ∀ vs, o ≠ some (arr vs)) : Branches o o

end Bodies

section Bodies

variable {R S : Json -> Json -> Prop} {o o' o'' : Option Json} {v w : Json}

theorem Body.or_eq (h : Body R o o') : o'.or o = o' := by
  cases h <;> rfl

theorem Body.eq_none_iff (h : Body R o o') : o' = none <-> o = none := by
  cases h <;> simp

theorem Branches.or_eq (h : Branches R o o') : o'.or o = o' := by
  cases h with
  | list => rfl
  | other => exact Option.or_self

theorem Branches.eq_none_iff (h : Branches R o o') : o' = none <-> o = none := by
  cases h <;> simp

theorem Body.orElse {p p' : Option Json} (h : Body R o o') (hp : Body R p p') :
    Body R (o.or p) (o'.or p') := by
  cases h with
  | missing => exact hp
  | list h => exact Body.list h

/-!
## The blocks in a body
-/

theorem Body.items (h : Body R o o') : List.Forall₂ R (items o) (items o') := by
  cases h with
  | missing => exact List.Forall₂.nil
  | list h => exact h

theorem Branch.items (h : Branch R v w) : List.Forall₂ R (children v) (children w) := by
  cases h with
  | object h => exact h.items
  | other h =>
      cases v with
      | obj ms => exact absurd rfl (h ms)
      | _ => exact List.Forall₂.nil

theorem Branches.items (h : Branches R o o') :
    List.Forall₂ R ((items o).flatMap children) ((items o').flatMap children) := by
  cases h with
  | list h =>
      induction h with
      | nil => exact List.Forall₂.nil
      | cons hb _ ih => exact List.rel_append hb.items ih
  | other h =>
      have hnone : Upgrade.items o = [] := by
        unfold Upgrade.items
        split
        · exact absurd rfl (h _)
        · rfl
      rw [hnone]
      exact List.Forall₂.nil

/-!
## Weaker relations, and one after another
-/

theorem forall₂_imp_of_mem {as bs : List Json} (h : List.Forall₂ R as bs)
    (hRS : ∀ a ∈ as, ∀ b, R a b -> S a b) : List.Forall₂ S as bs :=
  ((List.forall₂_and_left as bs).2 ⟨fun _ ha => ha, h⟩).imp fun a b hab => hRS a hab.1 b hab.2

theorem forall₂_comp {α : Type} {R S : α -> α -> Prop} {as bs cs : List α}
    (h : List.Forall₂ R as bs) :
    List.Forall₂ S bs cs -> List.Forall₂ (Relation.Comp R S) as cs := by
  induction h generalizing cs with
  | nil =>
      intro h
      cases h
      exact List.Forall₂.nil
  | cons hab _ ih =>
      intro h
      cases h with
      | cons hbc hrest => exact List.Forall₂.cons ⟨_, hab, hbc⟩ (ih hrest)

theorem Body.imp (h : Body R o o') (hRS : ∀ a ∈ Upgrade.items o, ∀ b, R a b -> S a b) :
    Body S o o' := by
  cases h with
  | missing => exact Body.missing
  | list h => exact Body.list (forall₂_imp_of_mem h hRS)

theorem Branch.imp (h : Branch R v w) (hRS : ∀ a ∈ children v, ∀ b, R a b -> S a b) :
    Branch S v w := by
  cases h with
  | object h hfields huniform => exact Branch.object (h.imp hRS) hfields huniform
  | other h => exact Branch.other h

theorem Branches.imp (h : Branches R o o')
    (hRS : ∀ a ∈ (Upgrade.items o).flatMap children, ∀ b, R a b -> S a b) :
    Branches S o o' := by
  cases h with
  | list h =>
      refine Branches.list ?_
      induction h with
      | nil => exact List.Forall₂.nil
      | cons hb _ ih =>
          refine List.Forall₂.cons (hb.imp fun a ha => hRS a ?_) (ih fun a ha => hRS a ?_)
          · exact List.mem_append_left _ ha
          · exact List.mem_append_right _ ha
  | other h => exact Branches.other h

theorem Body.comp (h : Body R o o') : Body S o' o'' -> Body (Relation.Comp R S) o o'' := by
  intro h'
  cases h with
  | missing =>
      cases h'
      exact Body.missing
  | list h =>
      cases h' with
      | list h' => exact Body.list (forall₂_comp h h')

theorem Branch.comp {u : Json} (h : Branch R u v) :
    Branch S v w -> Branch (Relation.Comp R S) u w := by
  intro h'
  cases h with
  | object h hfields =>
      cases h' with
      | object h' hfields' huniform =>
          exact Branch.object (h.comp h')
            (fun key hkey => (hfields' key hkey).trans (hfields key hkey)) huniform
      | other h' => exact absurd rfl (h' _)
  | other h =>
      cases h' with
      | object => exact absurd rfl (h _)
      | other => exact Branch.other h

theorem Branches.comp (h : Branches R o o') :
    Branches S o' o'' -> Branches (Relation.Comp R S) o o'' := by
  intro h'
  cases h with
  | list h =>
      cases h' with
      | list h' =>
          refine Branches.list ((forall₂_comp h h').imp fun a b hab => ?_)
          obtain ⟨c, hac, hcb⟩ := hab
          exact hac.comp hcb
      | other h' => exact absurd rfl (h' _)
  | other h =>
      cases h' with
      | list => exact absurd rfl (h _)
      | other => exact Branches.other h

/-!
## What is related to itself

Where everything that comes out of one relation is related to itself by another, so is a body that
comes out of it.
-/

theorem forall₂_self {as bs : List Json} (h : List.Forall₂ R as bs)
    (hRS : ∀ a ∈ as, ∀ b, R a b -> S b b) : List.Forall₂ S bs bs := by
  induction h with
  | nil => exact List.Forall₂.nil
  | @cons a b as bs hab _ ih =>
      exact List.Forall₂.cons (hRS a List.mem_cons_self b hab)
        (ih fun a' ha' => hRS a' (List.mem_cons_of_mem a ha'))

theorem Body.self (h : Body R o o') (hRS : ∀ a ∈ Upgrade.items o, ∀ b, R a b -> S b b) :
    Body S o' o' := by
  cases h with
  | missing => exact Body.missing
  | list h => exact Body.list (forall₂_self h hRS)

theorem Branch.self (h : Branch R v w) (hRS : ∀ a ∈ children v, ∀ b, R a b -> S b b) :
    Branch S w w := by
  cases h with
  | object h _ huniform => exact Branch.object (h.self hRS) (fun _ _ => rfl) huniform
  | other h => exact Branch.other h

theorem Branches.self (h : Branches R o o')
    (hRS : ∀ a ∈ (Upgrade.items o).flatMap children, ∀ b, R a b -> S b b) :
    Branches S o' o' := by
  cases h with
  | list h =>
      refine Branches.list ?_
      induction h with
      | nil => exact List.Forall₂.nil
      | cons hb _ ih =>
          refine List.Forall₂.cons (hb.self fun a ha => hRS a ?_) (ih fun a ha => hRS a ?_)
          · exact List.mem_append_left _ ha
          · exact List.mem_append_right _ ha
  | other h => exact Branches.other h

end Bodies

end Upgrade
end Workflow
