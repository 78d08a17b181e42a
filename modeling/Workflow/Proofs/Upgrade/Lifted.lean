import Workflow.Proofs.Upgrade.Walk

/-!
# What an upgrade makes of a document

Both migrations at once take each block to one block, with the blocks in its bodies lifted in their
turn and all else as it was.  Something gets lost on the way: a loop of the second version has its
body in `loop_blocks`, and where it also has blocks under `children` the body takes their place.
-/

namespace Workflow

open Json

namespace Upgrade

/-!
# Both migrations at once
-/

/-- From version 1 to 3. -/
def lifting : Migration := fun type =>
  if type = "for_loop" then some .loop else unifyTasks type

/-- A block and what an upgrade makes of it, with all the blocks inside. -/
inductive Lifts : Json -> Json -> Prop
  | intro {v w : Json} (h : Step lifting Lifts v w) : Lifts v w

section Lifting

variable {R S : Json -> Json -> Prop} {u v w : Json} {type : String}
  {change : Change}

theorem lifting_of_renameLoops (h : renameLoops type = some change) :
    lifting type = some change := by
  rcases renameLoops_eq_some.1 h with ⟨rfl, rfl⟩ | ⟨⟨kind, rfl⟩, rfl⟩
  · rfl
  · cases kind <;> decide

theorem Step.lift (h : Step renameLoops R v w) : Step lifting R v w := by
  cases h with
  | intro change known fields hchildren hblocks hbranches uniform =>
      exact Step.intro change (lifting_of_renameLoops known) fields hchildren hblocks hbranches
        uniform

theorem lifting_of_unifyTasks (h : unifyTasks type = some change) :
    (type = "for_loop" ∧ change = .keep) ∨
      (lifting type = some change ∧ ∃ kind : Kind, change.typeAfter type = kind.name) := by
  rcases unifyTasks_eq_some.1 h with
    ⟨rfl, rfl⟩ | ⟨rfl, rfl⟩ | ⟨rfl, rfl⟩ | ⟨rfl, rfl⟩ | ⟨⟨kind, rfl⟩, rfl⟩
  · exact Or.inr ⟨rfl, Kind.task, rfl⟩
  · exact Or.inr ⟨rfl, Kind.task, rfl⟩
  · exact Or.inr ⟨rfl, Kind.login, rfl⟩
  · exact Or.inl ⟨rfl, rfl⟩
  · exact Or.inr ⟨by cases kind <;> decide, kind, rfl⟩

theorem Step.comp (h : Step unifyTasks R u v) (h' : Step renameLoops S v w) :
    Step lifting (Relation.Comp R S) u w := by
  cases h with
  | @intro ms ns change known fields hchildren hblocks hbranches _ =>
      cases h' with
      | @intro _ ls change' known' fields' hchildren' hblocks' hbranches' uniform =>
          have htype := typeOf_eq_of_lookup (fields "block_type" (by decide))
          rcases lifting_of_unifyTasks known with ⟨hloop, rfl⟩ | ⟨hlifting, kind, hkind⟩
          · -- The first migration keeps the loop, and the second one renames it.
            have hchange : change' = .loop := by
              rw [htype, Change.typeAfter, hloop] at known'
              exact (Option.some.inj known').symm
            subst hchange
            refine Step.intro .loop (by rw [hloop]; rfl) (fun key hkey => ?_) ?_ ?_ ?_ uniform
            · rw [fields' key hkey]
              exact Change.former_congr (fun key hkey => fields key hkey) hkey
            · rw [Change.former_loop_children] at hchildren' ⊢
              exact (hblocks.orElse hchildren).comp hchildren'
            · exact Body.missing.comp hblocks'
            · rw [Change.former_branches] at hbranches hbranches' ⊢
              exact hbranches.comp hbranches'
          · -- The first migration leaves a type that the second one keeps.
            have hchange : change' = .keep := by
              rw [htype, hkind, renameLoops_name] at known'
              exact (Option.some.inj known').symm
            subst hchange
            exact Step.intro change hlifting
              (fun key hkey => (fields' key hkey).trans (fields key hkey))
              (hchildren.comp hchildren') (hblocks.comp hblocks') (hbranches.comp hbranches')
              uniform

theorem lifts_of_walks (v : Json) : ∀ w, Walks renameLoops v w -> Lifts v w := by
  induction v using block_induction with
  | step v ih =>
      intro w hvw
      exact Lifts.intro ((step_of_walks hvw).lift.imp ih)

theorem lifts_of_walks_walks (u : Json) :
    ∀ v w, Walks unifyTasks u v -> Walks renameLoops v w -> Lifts u w := by
  induction u using block_induction with
  | step u ih =>
      intro v w huv hvw
      refine Lifts.intro (((step_of_walks huv).comp (step_of_walks hvw)).imp fun a ha c hac => ?_)
      obtain ⟨b, hab, hbc⟩ := hac
      exact ih a ha b c hab hbc

end Lifting

/-!
# Blocks that are lost
-/

/-- A loop of the second version with a body, and with blocks in the place where the body goes. -/
def crowded : Json -> Bool
  | obj ms =>
      typeOf ms == "for_loop" && (ms.lookup "loop_blocks").isSome &&
        !(items (ms.lookup "children")).isEmpty
  | _ => false

/-- The blocks that an upgrade keeps of those in the bodies of a block. -/
def kept : Inside where
  blocks v :=
    if crowded v then
      items (v.get? "loop_blocks") ++ (items (v.get? "branches")).flatMap children
    else innerBlocks v
  inner := by
    intro v b hb
    split at hb
    · simp only [innerBlocks, List.mem_append] at hb ⊢
      tauto
    · exact hb

theorem children_ne_nil_of_crowded {v : Json} (h : crowded v = true) : children v ≠ [] := by
  cases v with
  | obj ms =>
      simp only [crowded, Bool.and_eq_true, Bool.not_eq_true', List.isEmpty_eq_false_iff] at h
      exact h.2
  | _ => cases h

section Kept

variable {R : Json -> Json -> Prop} {ms : List (String × Json)} {v w : Json} {change : Change}

theorem kept_blocks_eq (h : lifting (typeOf ms) = some change) :
    kept.blocks (obj ms) = change.blocks ms := by
  by_cases htype : typeOf ms = "for_loop"
  · rw [lifting, if_pos htype] at h
    cases h
    simp only [Change.blocks, Change.former_loop_children, Change.former_branches]
    have hgone : Change.loop.former ms "loop_blocks" = none := by simp [Change.former]
    rw [hgone]
    cases hbody : ms.lookup "loop_blocks" with
    | none => simp [kept, crowded, innerBlocks, children, Json.get?, hbody, items_none]
    | some body =>
        cases hchildren : items (ms.lookup "children") with
        | nil =>
            simp [kept, crowded, innerBlocks, children, Json.get?, hbody, hchildren, items_none]
        | cons b rest => simp [kept, crowded, Json.get?, htype, hbody, hchildren, items_none]
  · rw [lifting, if_neg htype] at h
    have hsame : kept.blocks (obj ms) = innerBlocks (obj ms) := by simp [kept, crowded, htype]
    rw [hsame]
    cases change with
    | loop => simp [unifyTasks_eq_some] at h
    | _ => simp [Change.blocks, Change.former, innerBlocks, children, Json.get?]

theorem Step.forall₂_kept (h : Step lifting R v w) :
    List.Forall₂ R (kept.blocks v) (innerBlocks w) := by
  have hinner := h.inner
  cases h with
  | intro change known =>
      simpa only [visited, known, Option.map_some, Option.getD_some, ← kept_blocks_eq known]
        using hinner

/-!
## How many are lost
-/

theorem length_flatMap_lt {α β : Type} {f g : α -> List β} {Q : α -> Prop} (l : List α)
    (h : ∀ a ∈ l, (f a).length ≤ (g a).length ∧ (Q a -> (f a).length < (g a).length)) :
    (l.flatMap f).length ≤ (l.flatMap g).length ∧
      ((∃ a ∈ l, Q a) -> (l.flatMap f).length < (l.flatMap g).length) := by
  induction l with
  | nil => simp
  | cons a rest ih =>
      obtain ⟨hle, hlt⟩ := h a List.mem_cons_self
      obtain ⟨hrest, hrest'⟩ := ih fun a' ha' => h a' (List.mem_cons_of_mem a ha')
      simp only [List.flatMap_cons, List.length_append]
      refine ⟨by omega, ?_⟩
      rintro ⟨a', ha', hq⟩
      rcases List.mem_cons.1 ha' with rfl | ha'
      · have := hlt hq
        omega
      · have := hrest' ⟨a', ha', hq⟩
        omega

/-- A block with a crowded loop inside loses some of the blocks inside it. -/
theorem length_kept_lt (v : Json) :
    (kept.inOrder v).length ≤ (every.inOrder v).length ∧
      ((∃ b ∈ every.inOrder v, crowded b) ->
        (kept.inOrder v).length < (every.inOrder v).length) := by
  induction v using block_induction with
  | step v ih =>
      have hall := length_flatMap_lt (kept.blocks v) fun b hb => ih b (kept.inner v b hb)
      rw [Inside.inOrder_eq kept, Inside.inOrder_eq every]
      cases hcrowded : crowded v with
      | true =>
          -- The blocks under `children` are missing, and there is at least one of them.
          have hblocks : every.blocks v = children v ++ kept.blocks v := by
            simp [every, kept, hcrowded, innerBlocks]
          obtain ⟨b, rest, hb⟩ := List.exists_cons_of_ne_nil (children_ne_nil_of_crowded hcrowded)
          rw [hblocks, hb, List.cons_append, List.flatMap_cons, Inside.inOrder_eq every b]
          simp only [List.length_cons, List.length_append, List.flatMap_append]
          exact ⟨by omega, fun _ => by omega⟩
      | false =>
          have hblocks : kept.blocks v = every.blocks v := by simp [every, kept, hcrowded]
          rw [hblocks] at hall ⊢
          simp only [List.length_cons]
          refine ⟨by omega, ?_⟩
          rintro ⟨b, hb, hb'⟩
          rcases List.mem_cons.1 hb with rfl | hb
          · simp [hcrowded] at hb'
          · obtain ⟨a, ha, hb⟩ := List.mem_flatMap.1 hb
            have := hall.2 ⟨a, ha, b, hb, hb'⟩
            omega

end Kept

/-!
# Documents
-/

/-- A document and what an upgrade makes of it. -/
inductive LiftsDocument : Json -> Json -> Prop
  | intro {ms ns : List (String × Json)}
      (version : ns.lookup "version" = some (int Definition.currentVersion.toNat))
      (blocks : Body Lifts (ms.lookup "blocks") (ns.lookup "blocks"))
      (fields : ∀ key, key ≠ "version" -> key ≠ "blocks" -> ns.lookup key = ms.lookup key) :
      LiftsDocument (obj ms) (obj ns)

section Documents

variable {v w : Json} {version n : UInt32}

theorem liftsDocument_of_upgrade (hversion : version = 1 ∨ version = 2)
    (h : upgrade v version = .ok (w, n)) : LiftsDocument v w := by
  obtain ⟨ms, xs, ys, rfl, hxs, hys, rfl, rfl⟩ := (upgrade_eq_ok hversion).1 h
  obtain ⟨hblocks, hfields, -⟩ := lookup_of_document hys
  have hlifted : Body Lifts (ms.lookup "blocks") (ys.lookup "blocks") ∧
      ∀ key, key ≠ "blocks" -> ys.lookup key = ms.lookup key := by
    split at hxs
    · obtain ⟨hblocks', hfields', -⟩ := lookup_of_document hxs
      refine ⟨(hblocks'.comp hblocks).imp fun a _ c hac => ?_, fun key hkey => ?_⟩
      · obtain ⟨b, hab, hbc⟩ := hac
        exact lifts_of_walks_walks a b c hab hbc
      · rw [hfields key hkey, hfields' key hkey]
    · cases hxs
      exact ⟨hblocks.imp fun a _ b hab => lifts_of_walks a b hab, hfields⟩
  refine LiftsDocument.intro ?_ ?_ fun key hkey hkey' => ?_
  · rw [lookup_setMember, if_pos rfl]
  · rw [lookup_setMember, if_neg (by decide)]
    exact hlifted.1
  · rw [lookup_setMember, if_neg hkey]
    exact hlifted.2 key hkey'

theorem forall₂_kept_allBlocks (h : LiftsDocument v w) :
    List.Forall₂ Lifts (kept.ofDocument v) (allBlocks w) := by
  cases h with
  | intro _ hblocks =>
      refine forall₂_blocks hblocks fun v w hvw => ?_
      cases hvw with
      | intro hstep => exact hstep.forall₂_kept

theorem ofDocument_kept_eq (h : ∀ b ∈ allBlocks v, crowded b = false) :
    kept.ofDocument v = allBlocks v := by
  refine List.flatMap_congr fun b hb => Inside.inOrder_congr b fun c hc => ?_
  have hcrowded : crowded c = false := h c (List.mem_flatMap.2 ⟨b, hb, hc⟩)
  simp [kept, every, hcrowded]

theorem length_ofDocument_kept_lt {b : Json} (hb : b ∈ allBlocks v) (h : crowded b = true) :
    (kept.ofDocument v).length < (allBlocks v).length := by
  obtain ⟨a, ha, hb⟩ := List.mem_flatMap.1 hb
  exact (length_flatMap_lt _ fun a _ => length_kept_lt a).2 ⟨a, ha, b, hb, h⟩

/-- An upgrade lifts each block that it keeps to one block, with the same nesting and order, and
leaves the rest of the document alone.  It keeps all of them as long as no loop of the second
version has blocks under `children` beside its body. -/
theorem upgrade_lifts (hversion : version = 1 ∨ version = 2)
    (h : upgrade v version = .ok (w, n)) :
    LiftsDocument v w ∧ List.Forall₂ Lifts (kept.ofDocument v) (allBlocks w) ∧
      (List.Forall₂ Lifts (allBlocks v) (allBlocks w) <->
        ∀ b ∈ allBlocks v, crowded b = false) := by
  have hdocument := liftsDocument_of_upgrade hversion h
  have hkept := forall₂_kept_allBlocks hdocument
  refine ⟨hdocument, hkept, fun hall b hb => ?_, fun hnone => ?_⟩
  · by_contra hcrowded
    have hlt := length_ofDocument_kept_lt hb (by simpa using hcrowded)
    have hlength := hall.length_eq.trans hkept.length_eq.symm
    omega
  · rw [← ofDocument_kept_eq hnone]
    exact hkept

/-- A loop of the first version with blocks in both places. -/
def crowdedLoop : Json :=
  obj [("blocks", arr [
      obj [("block_type", str "for_loop"),
        ("children", arr [obj [("block_type", str "navigation"), ("label", str "open")]]),
        ("label", str "each"),
        ("loop_blocks", arr [obj [("block_type", str "action"), ("label", str "click")]])]]),
    ("title", str "crowded"), ("version", int 1)]

/-- The loop as it is today, with one of its two blocks. -/
def crowdedLoopLifted : Json :=
  obj [("blocks", arr [
      obj [("block_type", str "loop"),
        ("children", arr [
          obj [("block_type", str "task"), ("label", str "click"), ("task_kind", str "action")]]),
        ("label", str "each")]]),
    ("title", str "crowded"), ("version", int 3)]

theorem upgrade_lifts_crowdedLoop :
    upgrade crowdedLoop 1 = .ok (crowdedLoopLifted, 3) ∧
      LiftsDocument crowdedLoop crowdedLoopLifted ∧
      List.Forall₂ Lifts (kept.ofDocument crowdedLoop) (allBlocks crowdedLoopLifted) ∧
      (List.Forall₂ Lifts (allBlocks crowdedLoop) (allBlocks crowdedLoopLifted) <->
        ∀ b ∈ allBlocks crowdedLoop, crowded b = false) :=
  ⟨rfl, upgrade_lifts (Or.inl rfl) rfl⟩

theorem not_lifts_all_crowdedLoop :
    upgrade crowdedLoop 1 = .ok (crowdedLoopLifted, 3) ∧
      (allBlocks crowdedLoop).length = 3 ∧ (allBlocks crowdedLoopLifted).length = 2 ∧
      ¬ List.Forall₂ Lifts (allBlocks crowdedLoop) (allBlocks crowdedLoopLifted) := by
  have hbefore : (allBlocks crowdedLoop).length = 3 := by
    simp [allBlocks, Inside.ofDocument, Inside.inOrder_eq, every, innerBlocks, children,
      Json.get?, items, lookup_cons_pair, crowdedLoop, -List.length_flatMap]
  have hafter : (allBlocks crowdedLoopLifted).length = 2 := by
    simp [allBlocks, Inside.ofDocument, Inside.inOrder_eq, every, innerBlocks, children,
      Json.get?, items, lookup_cons_pair, crowdedLoopLifted, -List.length_flatMap]
  refine ⟨rfl, hbefore, hafter, fun hall => ?_⟩
  have hlength := hall.length_eq
  omega

end Documents

end Upgrade
end Workflow
