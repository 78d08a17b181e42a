import Workflow.Block.Kind
import Workflow.Proofs.Upgrade.Bodies

/-!
# Walks over documents

A migration walks over the blocks of a document.  A walk that succeeds is described by what it does
at one block: the members of the block change by the rule of its type, and the blocks in its bodies
are walked in their turn.  Everything about walks comes from that description and from an induction
over the blocks inside a block.
-/

namespace Workflow

open Json

theorem bind_eq_ok {ε α β : Type} {x : Except ε α} {f : α -> Except ε β} {b : β} :
    x >>= f = .ok b <-> ∃ a, x = .ok a ∧ f a = .ok b := by
  cases x <;> simp [bind, Except.bind]

theorem map_eq_ok {ε α β : Type} {x : Except ε α} {f : α -> β} {b : β} :
    x.map f = .ok b <-> ∃ a, x = .ok a ∧ f a = b := by
  cases x <;> simp [Except.map]

namespace Upgrade

/-!
# Successful walks
-/

section Success

variable {m : Migration} {key : String} {ms ns : List (String × Json)} {o : Option Json}
  {v w : Json} {vs ws : List Json}

/-- A walk with the migration takes one block to the other. -/
def Walks (m : Migration) (v w : Json) : Prop :=
  block m v = .ok w

theorem items_eq_ok {f : Json -> Except UpgradeError Json}
    {each : List Json -> Except UpgradeError (List Json)} (hnil : each [] = .ok [])
    (hcons : ∀ v rest, each (v :: rest) = do
      let w <- f v
      let ws <- each rest
      return w :: ws) :
    each vs = .ok ws <-> List.Forall₂ (fun v w => f v = .ok w) vs ws := by
  induction vs generalizing ws with
  | nil => cases ws <;> simp [hnil]
  | cons v rest ih =>
      simp only [hcons, bind_eq_ok, ih, List.forall₂_cons_left_iff]
      simp [pure, Except.pure, eq_comm]

theorem blockItems_eq_ok : blockItems m vs = .ok ws <-> List.Forall₂ (Walks m) vs ws :=
  items_eq_ok rfl fun _ _ => rfl

theorem map_blocks_eq_ok :
    (blocks m v).map some = .ok o <-> Body (Walks m) (some v) o := by
  constructor
  · intro h
    cases v with
    | arr vs =>
        obtain ⟨w, hw, rfl⟩ := map_eq_ok.1 h
        obtain ⟨ws, hws, rfl⟩ := map_eq_ok.1 hw
        exact Body.list (blockItems_eq_ok.1 hws)
    | _ => cases h
  · intro h
    cases h with
    | list h => rw [blocks, blockItems_eq_ok.2 h]; rfl

theorem bodyAt_eq_ok : bodyAt m key ms = .ok o <-> Body (Walks m) (ms.lookup key) o := by
  induction ms with
  | nil =>
      constructor
      · intro h
        cases h
        exact Body.missing
      · intro h
        cases h
        rfl
  | cons e rest ih =>
      obtain ⟨k, v⟩ := e
      rw [bodyAt, lookup_cons_pair]
      by_cases hk : k = key
      · rw [if_pos hk, if_pos hk.symm, map_blocks_eq_ok]
      · rw [if_neg hk, if_neg (Ne.symm hk), ih]

theorem branch_eq_ok : branch m v = .ok w -> Branch (Walks m) v w := by
  intro h
  cases v with
  | obj ms =>
      obtain ⟨children, hchildren, hw⟩ := bind_eq_ok.1 h
      cases hw
      have hbody := bodyAt_eq_ok.1 hchildren
      refine Branch.object ?_ (fun key hkey => ?_) (uniform_setIfSome_self hbody.eq_none_iff.1)
      · rw [lookup_setIfSome, if_pos rfl, hbody.or_eq]
        exact hbody
      · rw [lookup_setIfSome, if_neg hkey]
  | _ => cases h; exact Branch.other (by simp)

theorem branchItems_eq_ok :
    branchItems m vs = .ok ws <-> List.Forall₂ (fun v w => branch m v = .ok w) vs ws :=
  items_eq_ok rfl fun _ _ => rfl

theorem branchesAt_eq :
    branchesAt m ms =
      match ms.lookup "branches" with
      | none => .ok none
      | some v => (branches m v).map some := by
  induction ms with
  | nil => rfl
  | cons e rest ih =>
      obtain ⟨k, v⟩ := e
      rw [branchesAt, lookup_cons_pair]
      by_cases hk : k = "branches"
      · rw [if_pos hk, if_pos hk.symm]
      · rw [if_neg hk, if_neg (Ne.symm hk), ih]

theorem branchesAt_eq_ok (h : branchesAt m ms = .ok o) :
    Branches (Walks m) (ms.lookup "branches") o := by
  rw [branchesAt_eq] at h
  cases hv : ms.lookup "branches" with
  | none =>
      rw [hv] at h
      cases h
      exact Branches.other (by simp)
  | some v =>
      rw [hv] at h
      obtain ⟨w, hw, rfl⟩ := map_eq_ok.1 h
      cases v with
      | arr vs =>
          obtain ⟨ws, hws, rfl⟩ := map_eq_ok.1 hw
          exact Branches.list ((branchItems_eq_ok.1 hws).imp fun _ _ => branch_eq_ok)
      | _ => cases hw; exact Branches.other (by simp)

end Success

/-!
# One block

What a successful walk does at a block.  The relation says how the blocks inside it are related.
-/

/-- The keys with bodies in them. -/
def bodyKeys : List String :=
  ["children", "loop_blocks", "branches"]

/-- The members of a block change by the rule of its type, and the bodies that it has then are
related block by block. -/
inductive Step (m : Migration) (R : Json -> Json -> Prop) : Json -> Json -> Prop
  | intro {ms ns : List (String × Json)} (change : Change)
      (known : m (typeOf ms) = some change)
      (fields : ∀ key, key ∉ bodyKeys -> ns.lookup key = change.former ms key)
      (children : Body R (change.former ms "children") (ns.lookup "children"))
      (loopBlocks : Body R (change.former ms "loop_blocks") (ns.lookup "loop_blocks"))
      (branches : Branches R (change.former ms "branches") (ns.lookup "branches"))
      (uniform : ∀ key ∈ bodyKeys, Uniform key ns) :
      Step m R (obj ms) (obj ns)

section Blocks

variable {m : Migration} {R S : Json -> Json -> Prop} {ms : List (String × Json)} {v w : Json}

theorem Change.former_congr {change : Change} {ms ns : List (String × Json)} {key : String}
    (h : ∀ key, key ∉ bodyKeys -> ns.lookup key = ms.lookup key) (hkey : key ∉ bodyKeys) :
    change.former ns key = change.former ms key := by
  have hsame : ns.lookup key = ms.lookup key := h key hkey
  have hover : ns.lookup "loop_over" = ms.lookup "loop_over" := h _ (by decide)
  have hsource : ns.lookup "loop_over_parameter_key" = ms.lookup "loop_over_parameter_key" :=
    h _ (by decide)
  simp only [bodyKeys, List.mem_cons, not_or] at hkey
  cases change <;> simp only [Change.former, hsame, hover, hsource, hkey, if_false]

/-- The members of a block with its bodies walked. -/
def withBodies (children loopBlocks branches : Option Json) (ms : List (String × Json)) :
    List (String × Json) :=
  setIfSome "branches" branches (setIfSome "loop_blocks" loopBlocks
    (setIfSome "children" children ms))

theorem walks_obj_iff {change : Change} (hchange : m (typeOf ms) = some change) :
    Walks m (obj ms) w <->
      ∃ c l b,
        (if change.dropsChildren ms then c = none else Body (Walks m) (ms.lookup "children") c) ∧
        Body (Walks m) (ms.lookup "loop_blocks") l ∧ branchesAt m ms = .ok b ∧
        w = obj (change.apply (withBodies c l b ms)) := by
  rw [Walks, block, hchange]
  by_cases hdrops : change.dropsChildren ms
  · simp [hdrops, bind_eq_ok, bodyAt_eq_ok, withBodies, pure, Except.pure, @eq_comm _ _ w]
  · simp [hdrops, bind_eq_ok, bodyAt_eq_ok, withBodies, pure, Except.pure, @eq_comm _ _ w]

theorem lookup_withBodies {c l b : Option Json} (key : String) :
    (withBodies c l b ms).lookup key =
      if key = "branches" then b.or (ms.lookup "branches")
      else if key = "loop_blocks" then l.or (ms.lookup "loop_blocks")
      else if key = "children" then c.or (ms.lookup "children")
      else ms.lookup key := by
  simp only [withBodies, lookup_setIfSome]
  by_cases hb : key = "branches"
  · simp [hb]
  · by_cases hl : key = "loop_blocks" <;> simp [hb, hl]

section Former

variable {change : Change} {c l b : Option Json}

theorem former_withBodies {key : String} (hkey : key ∉ bodyKeys) :
    change.former (withBodies c l b ms) key = change.former ms key := by
  refine Change.former_congr (fun key hkey => ?_) hkey
  simp only [bodyKeys, List.mem_cons, not_or] at hkey
  rw [lookup_withBodies, if_neg hkey.2.2.1, if_neg hkey.2.1, if_neg hkey.1]

theorem body_former_children
    (hc : if change.dropsChildren ms then c = none else Body R (ms.lookup "children") c)
    (hl : Body R (ms.lookup "loop_blocks") l) :
    Body R (change.former ms "children") (change.former (withBodies c l b ms) "children") := by
  cases change with
  | loop =>
      have hblocks : (withBodies c l b ms).lookup "loop_blocks" = l := by
        simp [lookup_withBodies, hl.or_eq]
      have hchildren : (withBodies c l b ms).lookup "children" =
          c.or (ms.lookup "children") := by
        simp [lookup_withBodies]
      rw [Change.former_loop_children, Change.former_loop_children, hblocks, hchildren]
      rw [Change.dropsChildren] at hc
      generalize ms.lookup "loop_blocks" = given at hc hl ⊢
      cases hl with
      | missing =>
          simp only [Option.isSome_none, Bool.false_eq_true, if_false] at hc
          rw [hc.or_eq]
          exact hc
      | list h => exact Body.list h
  | _ =>
      simp only [Change.dropsChildren, Bool.false_eq_true, if_false] at hc
      simpa [Change.former, lookup_withBodies, hc.or_eq] using hc

theorem body_former_loopBlocks (hl : Body R (ms.lookup "loop_blocks") l) :
    Body R (change.former ms "loop_blocks")
      (change.former (withBodies c l b ms) "loop_blocks") := by
  cases change with
  | loop => exact Body.missing
  | _ => simpa [Change.former, lookup_withBodies, hl.or_eq] using hl

theorem branches_former (hb : Branches R (ms.lookup "branches") b) :
    Branches R (change.former ms "branches")
      (change.former (withBodies c l b ms) "branches") := by
  rw [Change.former_branches, Change.former_branches, lookup_withBodies, if_pos rfl, hb.or_eq]
  exact hb

theorem uniform_withBodies
    (hc : if change.dropsChildren ms then c = none else Body R (ms.lookup "children") c)
    (hl : Body R (ms.lookup "loop_blocks") l) (hb : Branches R (ms.lookup "branches") b)
    {key : String} (hkey : key ∈ bodyKeys) :
    Uniform key (change.apply (withBodies c l b ms)) := by
  simp only [bodyKeys, List.mem_cons, List.not_mem_nil, or_false] at hkey
  rcases hkey with rfl | rfl | rfl
  · cases hdrops : change.dropsChildren ms with
    | false =>
        rw [hdrops] at hc
        exact uniform_apply (uniform_setIfSome (uniform_setIfSome
          (uniform_setIfSome_self (Body.eq_none_iff hc).1))) change
    | true =>
        -- The children are not walked here; the body of the loop is set in their place.
        cases change with
        | loop =>
            refine uniform_moveMember (uniform_moveMember_target ?_) _ _
            have hgiven : ms.lookup "loop_blocks" ≠ none := Option.isSome_iff_ne_none.1 hdrops
            simpa [lookup_setMember, lookup_withBodies, hl.or_eq, hl.eq_none_iff] using hgiven
        | _ => cases hdrops
  · refine uniform_apply (uniform_setIfSome (uniform_setIfSome_self fun h => ?_)) change
    simpa [lookup_setIfSome] using hl.eq_none_iff.1 h
  · refine uniform_apply (uniform_setIfSome_self fun h => ?_) change
    simpa [lookup_setIfSome] using hb.eq_none_iff.1 h

end Former

theorem step_of_walks (h : Walks m v w) : Step m (Walks m) v w := by
  cases v with
  | obj ms =>
      cases hchange : m (typeOf ms) with
      | none => simp [Walks, block, hchange] at h
      | some change =>
          obtain ⟨c, l, b, hc, hl, hb, rfl⟩ := (walks_obj_iff hchange).1 h
          have hbranches := branchesAt_eq_ok hb
          refine Step.intro change hchange (fun key hkey => ?_) ?_ ?_ ?_ fun key =>
            uniform_withBodies hc hl hbranches
          · rw [Change.lookup_apply, former_withBodies hkey]
          · rw [Change.lookup_apply]
            exact body_former_children hc hl
          · rw [Change.lookup_apply]
            exact body_former_loopBlocks hl
          · rw [Change.lookup_apply]
            exact branches_former hbranches
  | _ => cases h

/-!
# The blocks inside
-/

/-- The blocks that are in the bodies of a block after a change. -/
def Change.blocks (ms : List (String × Json)) (change : Change) : List Json :=
  items (change.former ms "children") ++ items (change.former ms "loop_blocks") ++
    (items (change.former ms "branches")).flatMap children

theorem Change.mem_blocks {change : Change} {b : Json} :
    b ∈ change.blocks ms <->
      b ∈ items (change.former ms "children") ∨ b ∈ items (change.former ms "loop_blocks") ∨
        b ∈ (items (change.former ms "branches")).flatMap children := by
  simp only [Change.blocks, List.mem_append, or_assoc]

theorem Change.mem_innerBlocks {change : Change} {b : Json} (h : b ∈ change.blocks ms) :
    b ∈ innerBlocks (obj ms) := by
  have hor : ∀ {o p : Option Json}, b ∈ items (o.or p) -> b ∈ items o ∨ b ∈ items p := by
    intro o p hb
    cases o with
    | none => exact Or.inr hb
    | some v => exact Or.inl hb
  rw [Change.mem_blocks, Change.former_branches] at h
  simp only [innerBlocks, children, Json.get?, List.mem_append]
  rcases h with h | h | h
  · refine Or.inl ?_
    cases change with
    | loop => exact (hor (by simpa [Change.former] using h)).symm
    | _ => exact Or.inl (by simpa [Change.former] using h)
  · refine Or.inl (Or.inr ?_)
    cases change with
    | loop => simp [Change.former, items] at h
    | _ => simpa [Change.former] using h
  · exact Or.inr h

/-- The blocks that a walk goes over. -/
def visited (m : Migration) : Inside where
  blocks := fun
    | obj ms => ((m (typeOf ms)).map (Change.blocks ms)).getD []
    | _ => []
  inner := by
    intro v b hb
    cases v with
    | obj ms =>
        cases hchange : m (typeOf ms) with
        | none => simp [hchange] at hb
        | some change => exact Change.mem_innerBlocks (by simpa [hchange] using hb)
    | _ => simp at hb

theorem Step.inner (h : Step m R v w) :
    List.Forall₂ R ((visited m).blocks v) (innerBlocks w) := by
  cases h with
  | intro change known _ hchildren hblocks hbranches _ =>
      simp only [visited, known, Option.map_some, Option.getD_some]
      exact List.rel_append (List.rel_append hchildren.items hblocks.items) hbranches.items

theorem Change.forall_blocks {P : Json -> Prop} (change : Change)
    (h : ∀ b ∈ innerBlocks (obj ms), P b) :
    (∀ b ∈ items (change.former ms "children"), P b) ∧
      (∀ b ∈ items (change.former ms "loop_blocks"), P b) ∧
      ∀ b ∈ (items (change.former ms "branches")).flatMap children, P b := by
  have hblocks : ∀ b ∈ change.blocks ms, P b := fun b hb => h b (Change.mem_innerBlocks hb)
  simp only [Change.mem_blocks] at hblocks
  exact ⟨fun b hb => hblocks b (Or.inl hb), fun b hb => hblocks b (Or.inr (Or.inl hb)),
    fun b hb => hblocks b (Or.inr (Or.inr hb))⟩

theorem Step.imp (h : Step m R v w) (hRS : ∀ a ∈ innerBlocks v, ∀ b, R a b -> S a b) :
    Step m S v w := by
  cases h with
  | intro change known fields hchildren hblocks hbranches uniform =>
      obtain ⟨hc, hl, hb⟩ := change.forall_blocks hRS
      exact Step.intro change known fields (hchildren.imp hc) (hblocks.imp hl) (hbranches.imp hb)
        uniform

end Blocks

/-!
# The two migrations
-/

section Types

variable {type : String} {change : Change}

theorem mem_lastingTypes_iff :
    (type = "loop" || lastingTypes.contains type) = true <-> ∃ kind : Kind, type = kind.name := by
  have hlasting : ∀ t ∈ lastingTypes, ∃ kind ∈ Kind.all, t = kind.name := by decide
  constructor
  · intro h
    rcases (Bool.or_eq_true _ _).mp h with h | h
    · exact ⟨Kind.loop, of_decide_eq_true h⟩
    · obtain ⟨kind, -, hkind⟩ := hlasting type (List.contains_iff_mem.1 h)
      exact ⟨kind, hkind⟩
  · rintro ⟨kind, rfl⟩
    cases kind <;> decide

theorem unifyTasks_name (kind : Kind) : unifyTasks kind.name = some Change.keep := by
  cases kind <;> decide

theorem renameLoops_name (kind : Kind) : renameLoops kind.name = some Change.keep := by
  cases kind <;> decide

theorem renameLoops_eq_some :
    renameLoops type = some change <->
      (type = "for_loop" ∧ change = Change.loop) ∨
        ((∃ kind : Kind, type = kind.name) ∧ change = Change.keep) := by
  constructor
  · intro h
    unfold renameLoops at h
    split at h
    · next htype => cases h; exact Or.inl ⟨htype, rfl⟩
    · split at h
      · next hlasting => cases h; exact Or.inr ⟨mem_lastingTypes_iff.1 hlasting, rfl⟩
      · cases h
  · rintro (⟨rfl, rfl⟩ | ⟨⟨kind, rfl⟩, rfl⟩)
    · rfl
    · exact renameLoops_name kind

theorem unifyTasks_eq_some :
    unifyTasks type = some change <->
      (type = "navigation" ∧ change = Change.task "navigation") ∨
        (type = "action" ∧ change = Change.task "action") ∨
        (type = "login_task" ∧ change = Change.login) ∨
        (type = "for_loop" ∧ change = Change.keep) ∨
        ((∃ kind : Kind, type = kind.name) ∧ change = Change.keep) := by
  constructor
  · intro h
    unfold unifyTasks at h
    split at h
    · next htype => cases h; exact Or.inl ⟨htype, rfl⟩
    split at h
    · next htype => cases h; exact Or.inr (Or.inl ⟨htype, rfl⟩)
    split at h
    · next htype => cases h; exact Or.inr (Or.inr (Or.inl ⟨htype, rfl⟩))
    split at h
    · next hlasting =>
        cases h
        rw [Bool.or_assoc, Bool.or_eq_true, mem_lastingTypes_iff, decide_eq_true_eq] at hlasting
        exact Or.inr (Or.inr (Or.inr (hlasting.imp (⟨·, rfl⟩) (⟨·, rfl⟩))))
    · cases h
  · rintro (⟨rfl, rfl⟩ | ⟨rfl, rfl⟩ | ⟨rfl, rfl⟩ | ⟨rfl, rfl⟩ | ⟨⟨kind, rfl⟩, rfl⟩)
    · rfl
    · rfl
    · rfl
    · rfl
    · exact unifyTasks_name kind

end Types

/-!
# Types after a change
-/

def Change.typeAfter (type : String) : Change -> String
  | keep => type
  | task _ => "task"
  | login => "login"
  | loop => "loop"

section TypesAfter

variable {ms ns : List (String × Json)} {change : Change} {type : String}

theorem typeOf_eq_of_lookup (h : ns.lookup "block_type" = change.former ms "block_type") :
    typeOf ns = change.typeAfter (typeOf ms) := by
  cases change <;> simp [typeOf, textOf, h, Change.former, Change.typeAfter]

theorem lookup_type_of_typeOf {kind : Kind} (h : typeOf ms = kind.name) :
    ms.lookup "block_type" = some (str kind.name) := by
  have hne : kind.name ≠ "" := by cases kind <;> decide
  unfold typeOf textOf at h
  split at h
  · next s hs =>
      rw [hs]
      exact congrArg (some ∘ str) h
  · exact absurd h.symm hne

theorem exists_kind_of_renameLoops (h : renameLoops type = some change) :
    ∃ kind : Kind, change.typeAfter type = kind.name := by
  rcases renameLoops_eq_some.1 h with ⟨-, rfl⟩ | ⟨hkind, rfl⟩
  · exact ⟨Kind.loop, rfl⟩
  · exact hkind

end TypesAfter

/-!
# Documents
-/

section Documents

variable {m : Migration} {ms ns : List (String × Json)} {v w : Json} {version n : UInt32}

theorem document_eq_ok :
    document m ms = .ok ns <->
      ∃ o, Body (Walks m) (ms.lookup "blocks") o ∧ ns = setIfSome "blocks" o ms := by
  simp [document, bind_eq_ok, bodyAt_eq_ok, pure, Except.pure, @eq_comm _ ns]

theorem lookup_of_document (h : document m ms = .ok ns) :
    Body (Walks m) (ms.lookup "blocks") (ns.lookup "blocks") ∧
      (∀ key, key ≠ "blocks" -> ns.lookup key = ms.lookup key) ∧ Uniform "blocks" ns := by
  obtain ⟨o, ho, rfl⟩ := document_eq_ok.1 h
  refine ⟨?_, fun key hkey => ?_, uniform_setIfSome_self ho.eq_none_iff.1⟩
  · rw [lookup_setIfSome, if_pos rfl, ho.or_eq]
    exact ho
  · rw [lookup_setIfSome, if_neg hkey]

theorem upgrade_eq_ok (hversion : version = 1 ∨ version = 2) :
    upgrade v version = .ok (w, n) <->
      ∃ ms xs ys, v = obj ms ∧
        (if version = 1 then document unifyTasks ms = .ok xs else xs = ms) ∧
        document renameLoops xs = .ok ys ∧
        w = obj (setMember "version" (int Definition.currentVersion.toNat) ys) ∧
        n = Definition.currentVersion := by
  have hcurrent : version ≠ Definition.currentVersion := by
    rcases hversion with rfl | rfl <;> decide
  rcases hversion with rfl | rfl <;> cases v <;>
    simp [upgrade, hcurrent, migrations, bind_eq_ok, pure, Except.pure, @eq_comm _ w,
      @eq_comm _ n]

theorem forall₂_blocks {R : Json -> Json -> Prop} {s t : Inside} {o o' : Option Json}
    (h : Body R o o') (hinner : ∀ v w, R v w -> List.Forall₂ R (s.blocks v) (t.blocks w)) :
    List.Forall₂ R ((items o).flatMap s.inOrder) ((items o').flatMap t.inOrder) :=
  forall₂_flatMap h.items fun v _ w hvw => Inside.forall₂_inOrder hinner v w hvw

end Documents

end Upgrade
end Workflow
