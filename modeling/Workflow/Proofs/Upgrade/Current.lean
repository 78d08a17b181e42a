import Workflow.Proofs.Upgrade.Walk

/-!
# Upgraded documents

A walk leaves every block with a type that later walks keep, and with bodies that later walks find
as they are.  So a document that was upgraded is not changed by another upgrade, from whichever
version it starts.
-/

namespace Workflow

open Json

namespace Upgrade

/-!
# Blocks that walks leave alone
-/

section Blocks

variable {m m' : Migration} {R S : Json -> Json -> Prop} {ns : List (String × Json)} {v w : Json}

theorem Step.self (h : Step m R v w)
    (hkeep : ∀ {type change}, m type = some change -> m' (change.typeAfter type) = some .keep)
    (hRS : ∀ a ∈ innerBlocks v, ∀ b, R a b -> S b b) : Step m' S w w := by
  cases h with
  | intro change known fields hchildren hblocks hbranches uniform =>
      have htype := typeOf_eq_of_lookup (fields "block_type" (by decide))
      obtain ⟨hc, hl, hb⟩ := change.forall_blocks hRS
      exact Step.intro .keep (htype ▸ hkeep known) (fun _ _ => rfl) (hchildren.self hc)
        (hblocks.self hl) (hbranches.self hb) uniform

theorem branch_self (h : Branch (Walks m) w w) : branch m w = .ok w := by
  cases h with
  | @object ms _ hbody _ huniform =>
      rw [branch, bodyAt_eq_ok.2 hbody]
      exact congrArg (Except.ok ∘ obj) (setIfSome_eq_self huniform)
  | other h =>
      cases w with
      | obj ms => exact absurd rfl (h ms)
      | _ => rfl

theorem branchesAt_self
    (h : Branches (Walks m) (ns.lookup "branches") (ns.lookup "branches")) :
    branchesAt m ns = .ok (ns.lookup "branches") := by
  rw [branchesAt_eq]
  generalize ns.lookup "branches" = o at h ⊢
  cases o with
  | none => rfl
  | some v =>
      cases v with
      | arr vs =>
          cases h with
          | list h =>
              have hitems : branchItems m vs = .ok vs :=
                branchItems_eq_ok.2 (List.forall₂_same.2 fun v hv =>
                  branch_self (List.forall₂_same.1 h v hv))
              change (branches m (arr vs)).map some = _
              rw [branches, hitems]
              rfl
          | other h => exact absurd rfl (h vs)
      | _ => rfl

theorem walks_self (h : Step m (Walks m) (obj ns) (obj ns)) (hkeep : m (typeOf ns) = some .keep) :
    Walks m (obj ns) (obj ns) := by
  cases h with
  | intro change known _ hchildren hblocks hbranches uniform =>
      cases known.symm.trans hkeep
      refine (walks_obj_iff hkeep).2 ⟨ns.lookup "children", ns.lookup "loop_blocks",
        ns.lookup "branches", hchildren, hblocks, branchesAt_self hbranches, ?_⟩
      have hself : withBodies (ns.lookup "children") (ns.lookup "loop_blocks")
          (ns.lookup "branches") ns = ns := by
        rw [withBodies, setIfSome_eq_self (uniform _ (by decide)),
          setIfSome_eq_self (uniform _ (by decide)), setIfSome_eq_self (uniform _ (by decide))]
      rw [hself]
      rfl

/-- Where one migration leaves only types that another one keeps, the other leaves alone whatever
the first has walked over. -/
theorem walks_of_walks
    (hkeep : ∀ {type change}, m type = some change -> m' (change.typeAfter type) = some .keep)
    (v : Json) : ∀ w, Walks m v w -> Walks m' w w := by
  induction v using block_induction with
  | step v ih =>
      intro w hvw
      have hstep := step_of_walks hvw
      have hself : Step m' (Walks m') w w := hstep.self hkeep ih
      cases hstep with
      | intro change known fields =>
          have htype := typeOf_eq_of_lookup (fields "block_type" (by decide))
          exact walks_self hself (htype ▸ hkeep known)

theorem type_of_walks (h : Walks renameLoops v w) :
    ∃ kind : Kind, w.get? "block_type" = some (str kind.name) := by
  cases step_of_walks h with
  | intro change known fields =>
      obtain ⟨kind, hkind⟩ := exists_kind_of_renameLoops known
      have htype := typeOf_eq_of_lookup (fields "block_type" (by decide))
      exact ⟨kind, lookup_type_of_typeOf (htype.trans hkind)⟩

end Blocks

/-!
# Documents that upgrades leave alone
-/

section Documents

variable {m : Migration} {xs ys : List (String × Json)} {v w : Json} {version n : UInt32}

/-- A migration that keeps the types of today leaves alone what loops were renamed in last. -/
theorem document_self (hkeep : ∀ kind : Kind, m kind.name = some .keep)
    (h : Body (Walks renameLoops) (xs.lookup "blocks") (ys.lookup "blocks"))
    (huniform : Uniform "blocks" ys) : document m ys = .ok ys := by
  have hself : Body (Walks m) (ys.lookup "blocks") (ys.lookup "blocks") :=
    h.self fun v _ w hvw => walks_of_walks (fun {type change} hchange => by
      obtain ⟨kind, hkind⟩ := exists_kind_of_renameLoops hchange
      rw [hkind, hkeep]) v w hvw
  exact document_eq_ok.2 ⟨_, hself, (setIfSome_eq_self huniform).symm⟩

/-- A document is upgraded once and for all.  The version it says is then the current one, all of
its blocks have types of today, and an upgrade from any version leaves it as it is. -/
theorem upgrade_of_upgrade (hversion : version = 1 ∨ version = 2)
    (h : upgrade v version = .ok (w, n)) :
    n = Definition.currentVersion ∧
      w.get? "version" = some (int n.toNat) ∧
      (∀ b ∈ allBlocks w, ∃ kind : Kind, b.get? "block_type" = some (str kind.name)) ∧
      ∀ k : UInt32, k = 1 ∨ k = 2 ∨ k = 3 -> upgrade w k = .ok (w, n) := by
  obtain ⟨ms, xs, ys, -, -, hys, rfl, rfl⟩ := (upgrade_eq_ok hversion).1 h
  obtain ⟨hbody, -, huniform⟩ := lookup_of_document hys
  set zs := setMember "version" (int Definition.currentVersion.toNat) ys with hzs
  have hlookup : zs.lookup "blocks" = ys.lookup "blocks" := by
    rw [hzs, lookup_setMember, if_neg (by decide)]
  rw [← hlookup] at hbody
  replace huniform : Uniform "blocks" zs := uniform_setMember fun _ => huniform
  have hstill : setMember "version" (int Definition.currentVersion.toNat) zs = zs :=
    setMember_eq_self (uniform_setMember fun hne => absurd rfl hne)
      (by rw [hzs, lookup_setMember, if_pos rfl])
  have hunify := document_self unifyTasks_name hbody huniform
  have hrename := document_self renameLoops_name hbody huniform
  refine ⟨rfl, ?_, ?_, ?_⟩
  · rw [Json.get?, hzs, lookup_setMember, if_pos rfl]
  · have hblocks : List.Forall₂ (Walks renameLoops)
        ((items (xs.lookup "blocks")).flatMap (visited renameLoops).inOrder) (allBlocks (obj zs)) :=
      forall₂_blocks hbody fun v w hvw => (step_of_walks hvw).inner
    have htypes := forall₂_self hblocks (S := fun b _ => ∃ kind : Kind,
      b.get? "block_type" = some (str kind.name)) fun _ _ b hab => type_of_walks hab
    exact List.forall₂_same.1 htypes
  · rintro k (rfl | rfl | rfl)
    · exact (upgrade_eq_ok (Or.inl rfl)).2 ⟨zs, zs, zs, rfl, hunify, hrename, by rw [hstill], rfl⟩
    · exact (upgrade_eq_ok (Or.inr rfl)).2 ⟨zs, zs, zs, rfl, rfl, hrename, by rw [hstill], rfl⟩
    · rfl

/-- A document of the first version that already has a loop of today in it. -/
def legacy : Json :=
  obj [("blocks", arr [
      obj [("block_type", str "navigation"), ("label", str "open")],
      obj [("block_type", str "for_loop"), ("label", str "each"),
        ("loop_blocks", arr [
          obj [("block_type", str "conditional"), ("branches", arr [
            obj [("children", arr [obj [("block_type", str "login_task")]])], null])],
          obj [("block_type", str "loop"), ("children", arr [])]]),
        ("loop_over_parameter_key", str "open_output")]]),
    ("version", int 1)]

def legacyUpgraded : Json :=
  obj [("blocks", arr [
      obj [("block_type", str "task"), ("label", str "open"), ("task_kind", str "navigation")],
      obj [("block_type", str "loop"),
        ("children", arr [
          obj [("block_type", str "conditional"), ("branches", arr [
            obj [("children", arr [obj [("block_type", str "login")]])], null])],
          obj [("block_type", str "loop"), ("children", arr [])]]),
        ("label", str "each"), ("loop_over", str "open_output")]]),
    ("version", int 3)]

theorem upgrade_of_upgrade_legacy :
    upgrade legacy 1 = .ok (legacyUpgraded, 3) ∧
      (3 : UInt32) = Definition.currentVersion ∧
      legacyUpgraded.get? "version" = some (int (3 : UInt32).toNat) ∧
      (∀ b ∈ allBlocks legacyUpgraded,
        ∃ kind : Kind, b.get? "block_type" = some (str kind.name)) ∧
      ∀ k : UInt32, k = 1 ∨ k = 2 ∨ k = 3 ->
        upgrade legacyUpgraded k = .ok (legacyUpgraded, 3) :=
  ⟨rfl, upgrade_of_upgrade (v := legacy) (Or.inl rfl) rfl⟩

end Documents

end Upgrade
end Workflow
