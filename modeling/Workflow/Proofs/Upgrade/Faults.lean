import Workflow.Proofs.Upgrade.Lifted

/-!
# Faults of old documents

Where an upgrade from the first version fails.  A document is read as the list of the places that a
walk comes to: the document, its list of blocks, and with each block the lists of blocks in it, a
list before its items and an item before what is in it.  Some places are at fault by themselves.  An
upgrade fails with the first fault, whether or not other blocks have been changed before, and
without a fault it succeeds: the first migration leaves nothing that the second one does not know.
-/

namespace Workflow

open Json

namespace Upgrade

/-!
# Places
-/

/-- What a walk comes to. -/
inductive Place where
  | document (v : Json)
  | list (v : Json)
  | block (v : Json)

/-- The names that types of blocks have in any version. -/
def typeNames : List String :=
  ["navigation", "action", "login_task", "for_loop"] ++ Kind.all.map Kind.name

/-- What is wrong with a place, whatever is in it. -/
def Place.fault? : Place -> Option UpgradeError
  | document (obj _) => none
  | document _ => some (.malformed .notAnObject)
  | list (arr _) => none
  | list _ => some (.malformed .blocksNotAList)
  | block (obj ms) =>
      if typeNames.contains (typeOf ms) then none else some (.unmappable (labelOf ms) (typeOf ms))
  | block _ => some (.malformed .blockNotAnObject)

/-- The members of a block that stand for lists of blocks, in the order they are walked in. -/
def bodies (v : Json) : List Json :=
  (v.get? "children").toList ++ (v.get? "loop_blocks").toList ++
    (items (v.get? "branches")).flatMap fun branch => (branch.get? "children").toList

theorem items_bodies (v : Json) : (bodies v).flatMap (fun l => items (some l)) = innerBlocks v := by
  have htoList : ∀ o : Option Json, o.toList.flatMap (fun l => items (some l)) = items o := by
    intro o
    cases o <;> simp [items]
  simp only [bodies, innerBlocks, List.flatMap_append, List.flatMap_assoc, htoList]
  rfl

/-- A block before its bodies, and a body before its blocks. -/
def placesAt (v : Json) : List Place :=
  .block v :: (bodies v).attach.flatMap fun l =>
    .list l.1 :: (items (some l.1)).attach.flatMap fun b => placesAt b.1
termination_by sizeOf v
decreasing_by
  apply sizeOf_lt_of_mem_innerBlocks
  rw [← items_bodies]
  exact List.mem_flatMap.2 ⟨l.1, l.2, b.2⟩

/-- A list that should be one of blocks. -/
def placesIn (l : Json) : List Place :=
  .list l :: (items (some l)).flatMap placesAt

theorem placesAt_eq (v : Json) : placesAt v = .block v :: (bodies v).flatMap placesIn := by
  have hin : ∀ l : Json, (.list l :: (items (some l)).attach.flatMap fun b => placesAt b.1) =
      placesIn l := by
    intro l
    rw [placesIn, ← List.flatMap_map, List.attach_map_subtype_val]
  rw [placesAt]
  simp only [hin]
  rw [← List.flatMap_map, List.attach_map_subtype_val]

/-- All places of a document in order. -/
def places (v : Json) : List Place :=
  .document v :: (v.get? "blocks").toList.flatMap placesIn

/-!
# First faults
-/

def firstFault (ps : List Place) : Option UpgradeError :=
  ps.findSome? Place.fault?

theorem firstFault_cons (p : Place) (ps : List Place) :
    firstFault (p :: ps) = p.fault?.or (firstFault ps) := by
  rw [firstFault, List.findSome?_cons]
  cases p.fault? <;> rfl

theorem firstFault_append (ps qs : List Place) :
    firstFault (ps ++ qs) = (firstFault ps).or (firstFault qs) :=
  List.findSome?_append

def errorOf? {α : Type} : Except UpgradeError α -> Option UpgradeError
  | .ok _ => none
  | .error e => some e

section Errors

variable {α β : Type} {x : Except UpgradeError α}

theorem errorOf?_eq_some {e : UpgradeError} : errorOf? x = some e <-> x = .error e := by
  cases x <;> simp [errorOf?]

theorem errorOf?_eq_none : errorOf? x = none <-> ∃ a, x = .ok a := by
  cases x <;> simp [errorOf?]

theorem errorOf?_map (f : α -> β) : errorOf? (x.map f) = errorOf? x := by
  cases x <;> rfl

theorem errorOf?_bind {f : α -> Except UpgradeError β} {o : Option UpgradeError}
    (h : ∀ a, errorOf? (f a) = o) : errorOf? (x >>= f) = (errorOf? x).or o := by
  cases x with
  | ok a => exact h a
  | error e => rfl

end Errors

/-!
# The first migration
-/

section First

variable {vs : List Json} {v : Json} {ms : List (String × Json)}

theorem typeNames_contains_iff {type : String} :
    typeNames.contains type <-> ∃ change, unifyTasks type = some change := by
  have hkinds : type ∈ Kind.all.map Kind.name <-> ∃ kind : Kind, type = kind.name := by
    rw [List.mem_map]
    constructor
    · rintro ⟨kind, -, rfl⟩
      exact ⟨kind, rfl⟩
    · rintro ⟨kind, rfl⟩
      exact ⟨kind, by cases kind <;> decide, rfl⟩
  rw [List.contains_iff_mem, typeNames, List.mem_append, hkinds]
  simp only [unifyTasks_eq_some, List.mem_cons, List.not_mem_nil, or_false]
  constructor
  · rintro ((h | h | h | h) | h)
    · exact ⟨_, Or.inl ⟨h, rfl⟩⟩
    · exact ⟨_, Or.inr (Or.inl ⟨h, rfl⟩)⟩
    · exact ⟨_, Or.inr (Or.inr (Or.inl ⟨h, rfl⟩))⟩
    · exact ⟨_, Or.inr (Or.inr (Or.inr (Or.inl ⟨h, rfl⟩)))⟩
    · exact ⟨_, Or.inr (Or.inr (Or.inr (Or.inr ⟨h, rfl⟩)))⟩
  · rintro ⟨change, ⟨h, -⟩ | ⟨h, -⟩ | ⟨h, -⟩ | ⟨h, -⟩ | ⟨h, -⟩⟩
    · exact Or.inl (Or.inl h)
    · exact Or.inl (Or.inr (Or.inl h))
    · exact Or.inl (Or.inr (Or.inr (Or.inl h)))
    · exact Or.inl (Or.inr (Or.inr (Or.inr h)))
    · exact Or.inr h

theorem dropsChildren_of_unifyTasks {type : String} {change : Change}
    (h : unifyTasks type = some change) : change.dropsChildren ms = false := by
  rcases unifyTasks_eq_some.1 h with ⟨-, rfl⟩ | ⟨-, rfl⟩ | ⟨-, rfl⟩ | ⟨-, rfl⟩ | ⟨-, rfl⟩ <;> rfl

theorem errorOf?_blockItems
    (h : ∀ b ∈ vs, errorOf? (block unifyTasks b) = firstFault (placesAt b)) :
    errorOf? (blockItems unifyTasks vs) = firstFault (vs.flatMap placesAt) := by
  induction vs with
  | nil => rfl
  | cons v rest ih =>
      rw [List.flatMap_cons, firstFault_append, ← h v List.mem_cons_self,
        ← ih fun b hb => h b (List.mem_cons_of_mem v hb), blockItems]
      refine errorOf?_bind fun w => ?_
      rw [errorOf?_bind (o := none) fun ws => rfl, Option.or_none]

theorem errorOf?_blocks
    (h : ∀ b ∈ items (some v), errorOf? (block unifyTasks b) = firstFault (placesAt b)) :
    errorOf? (blocks unifyTasks v) = firstFault (placesIn v) := by
  rw [placesIn, firstFault_cons]
  cases v with
  | arr vs =>
      rw [blocks, errorOf?_map]
      exact errorOf?_blockItems h
  | _ => rfl

theorem errorOf?_bodyAt {key : String}
    (h : ∀ b ∈ items (ms.lookup key), errorOf? (block unifyTasks b) = firstFault (placesAt b)) :
    errorOf? (bodyAt unifyTasks key ms) =
      firstFault ((ms.lookup key).toList.flatMap placesIn) := by
  induction ms with
  | nil => rfl
  | cons e rest ih =>
      obtain ⟨k, v⟩ := e
      rw [lookup_cons_pair] at h ⊢
      rw [bodyAt]
      by_cases hk : k = key
      · rw [if_pos hk.symm] at h ⊢
        rw [if_pos hk, errorOf?_map, errorOf?_blocks h, Option.toList_some, List.flatMap_singleton]
      · rw [if_neg (Ne.symm hk)] at h ⊢
        rw [if_neg hk, ih h]

theorem errorOf?_branch
    (h : ∀ b ∈ children v, errorOf? (block unifyTasks b) = firstFault (placesAt b)) :
    errorOf? (branch unifyTasks v) =
      firstFault ((v.get? "children").toList.flatMap placesIn) := by
  cases v with
  | obj ms =>
      rw [branch, errorOf?_bind (o := none) fun _ => rfl, Option.or_none]
      exact errorOf?_bodyAt h
  | _ => rfl

theorem errorOf?_branchItems
    (h : ∀ b ∈ vs.flatMap children, errorOf? (block unifyTasks b) = firstFault (placesAt b)) :
    errorOf? (branchItems unifyTasks vs) =
      firstFault (vs.flatMap fun v => (v.get? "children").toList.flatMap placesIn) := by
  induction vs with
  | nil => rfl
  | cons v rest ih =>
      rw [List.flatMap_cons] at h
      rw [List.flatMap_cons, firstFault_append,
        ← errorOf?_branch fun b hb => h b (List.mem_append_left _ hb),
        ← ih fun b hb => h b (List.mem_append_right _ hb), branchItems]
      refine errorOf?_bind fun w => ?_
      rw [errorOf?_bind (o := none) fun ws => rfl, Option.or_none]

theorem errorOf?_branchesAt
    (h : ∀ b ∈ (items (ms.lookup "branches")).flatMap children,
      errorOf? (block unifyTasks b) = firstFault (placesAt b)) :
    errorOf? (branchesAt unifyTasks ms) = firstFault ((items (ms.lookup "branches")).flatMap
      fun v => (v.get? "children").toList.flatMap placesIn) := by
  rw [branchesAt_eq]
  cases hv : ms.lookup "branches" with
  | none => rfl
  | some v =>
      rw [hv] at h
      change errorOf? ((branches unifyTasks v).map some) = _
      rw [errorOf?_map]
      cases v with
      | arr vs =>
          rw [branches, errorOf?_map]
          exact errorOf?_branchItems h
      | _ => rfl

theorem errorOf?_block (v : Json) :
    errorOf? (block unifyTasks v) = firstFault (placesAt v) := by
  induction v using block_induction with
  | step v ih =>
      rw [placesAt_eq, firstFault_cons]
      cases v with
      | obj ms =>
          rw [block, Place.fault?]
          cases hchange : unifyTasks (typeOf ms) with
          | none =>
              have hunknown : ¬ typeNames.contains (typeOf ms) := by
                rw [typeNames_contains_iff, hchange]
                simp
              rw [if_neg hunknown]
              rfl
          | some change =>
              have hget : ∀ key, (obj ms).get? key = ms.lookup key := fun _ => rfl
              simp only [innerBlocks, children, hget, List.mem_append, or_assoc] at ih
              rw [if_pos (typeNames_contains_iff.2 ⟨change, hchange⟩), Option.none_or]
              simp only [bodies, hget, List.flatMap_append, List.flatMap_assoc, firstFault_append,
                Option.or_assoc, dropsChildren_of_unifyTasks hchange, Bool.false_eq_true, if_false]
              rw [← errorOf?_bodyAt fun b hb => ih b (Or.inl hb),
                ← errorOf?_bodyAt fun b hb => ih b (Or.inr (Or.inl hb)),
                ← errorOf?_branchesAt fun b hb => ih b (Or.inr (Or.inr hb))]
              refine errorOf?_bind fun c => errorOf?_bind fun l => ?_
              rw [errorOf?_bind (o := none) fun _ => rfl, Option.or_none]
      | _ => rfl

end First

/-!
# The second migration

Whatever the first migration has accepted has only types that the second one knows, and lists where
the second one looks for lists.
-/

section Second

variable {R S : Json -> Json -> Prop} {o o' : Option Json} {v w : Json}

theorem exists_forall₂ {as bs : List Json} (h : List.Forall₂ R as bs)
    (hRS : ∀ a ∈ as, ∀ b, R a b -> ∃ c, S b c) : ∃ cs, List.Forall₂ S bs cs := by
  induction h with
  | nil => exact ⟨[], List.Forall₂.nil⟩
  | @cons a b as bs hab _ ih =>
      obtain ⟨c, hc⟩ := hRS a List.mem_cons_self b hab
      obtain ⟨cs, hcs⟩ := ih fun a' ha' => hRS a' (List.mem_cons_of_mem a ha')
      exact ⟨c :: cs, List.Forall₂.cons hc hcs⟩

theorem Body.exists_next (h : Body R o o') (hRS : ∀ a ∈ Upgrade.items o, ∀ b, R a b -> ∃ c, S b c) :
    ∃ o'', Body S o' o'' := by
  cases h with
  | missing => exact ⟨none, Body.missing⟩
  | list h =>
      obtain ⟨cs, hcs⟩ := exists_forall₂ h hRS
      exact ⟨some (arr cs), Body.list hcs⟩

variable {m : Migration}

theorem Branch.exists_next (h : Branch R v w)
    (hR : ∀ a ∈ children v, ∀ b, R a b -> ∃ c, Walks m b c) : ∃ x, branch m w = .ok x := by
  cases h with
  | @object ms ns hbody =>
      obtain ⟨c, hc⟩ := hbody.exists_next hR
      refine ⟨obj (setIfSome "children" c ns), ?_⟩
      rw [branch, bodyAt_eq_ok.2 hc]
      rfl
  | other h =>
      cases v with
      | obj ms => exact absurd rfl (h ms)
      | _ => exact ⟨_, rfl⟩

theorem Branches.exists_next {ns : List (String × Json)}
    (h : Branches R o (ns.lookup "branches"))
    (hR : ∀ a ∈ (Upgrade.items o).flatMap children, ∀ b, R a b -> ∃ c, Walks m b c) :
    ∃ o'', branchesAt m ns = .ok o'' := by
  rw [branchesAt_eq]
  generalize ns.lookup "branches" = o' at h
  cases h with
  | @list vs ws h =>
      obtain ⟨cs, hcs⟩ := exists_forall₂ (S := fun b c => branch m b = .ok c) h
        fun a ha b hab => hab.exists_next fun c hc => hR c (List.mem_flatMap.2 ⟨a, ha, hc⟩)
      refine ⟨some (arr cs), ?_⟩
      change (branches m (arr ws)).map some = _
      rw [branches, branchItems_eq_ok.2 hcs]
      rfl
  | other h =>
      cases o with
      | none => exact ⟨none, rfl⟩
      | some v =>
          cases v with
          | arr vs => exact absurd rfl (h vs)
          | _ => exact ⟨_, rfl⟩

theorem exists_renameLoops {type : String} {change : Change} (h : unifyTasks type = some change) :
    ∃ change', renameLoops (change.typeAfter type) = some change' := by
  rcases lifting_of_unifyTasks h with ⟨rfl, rfl⟩ | ⟨-, kind, hkind⟩
  · exact ⟨.loop, rfl⟩
  · exact ⟨.keep, by rw [hkind, renameLoops_name]⟩

theorem exists_walks_renameLoops (u : Json) :
    ∀ v, Walks unifyTasks u v -> ∃ w, Walks renameLoops v w := by
  induction u using block_induction with
  | step u ih =>
      intro v huv
      cases step_of_walks huv with
      | @intro ms ns change known fields hchildren hblocks hbranches _ =>
          have htype := typeOf_eq_of_lookup (fields "block_type" (by decide))
          obtain ⟨change', hchange'⟩ := exists_renameLoops known
          obtain ⟨hc, hl, hb⟩ := change.forall_blocks ih
          obtain ⟨c, hchildren'⟩ := hchildren.exists_next hc
          obtain ⟨l, hblocks'⟩ := hblocks.exists_next hl
          obtain ⟨b, hbranches'⟩ := hbranches.exists_next hb
          refine ⟨_, (walks_obj_iff (htype ▸ hchange')).2
            ⟨if change'.dropsChildren ns then none else c, l, b, ?_, hblocks', hbranches', rfl⟩⟩
          split
          · rfl
          · exact hchildren'

theorem exists_document_renameLoops {ms ns : List (String × Json)}
    (h : document unifyTasks ms = .ok ns) : ∃ ks, document renameLoops ns = .ok ks := by
  obtain ⟨hbody, -, -⟩ := lookup_of_document h
  obtain ⟨o, ho⟩ := hbody.exists_next fun a _ b hab => exists_walks_renameLoops a b hab
  exact ⟨_, document_eq_ok.2 ⟨o, ho, rfl⟩⟩

end Second

/-!
# Documents
-/

theorem errorOf?_document (ms : List (String × Json)) :
    errorOf? (document unifyTasks ms) =
      firstFault ((ms.lookup "blocks").toList.flatMap placesIn) := by
  rw [document, errorOf?_bind (o := none) fun _ => rfl, Option.or_none]
  exact errorOf?_bodyAt fun b _ => errorOf?_block b

/-- An upgrade from the first version fails with the first fault of the document. -/
theorem errorOf?_upgrade (v : Json) : errorOf? (upgrade v 1) = firstFault (places v) := by
  rw [places, firstFault_cons]
  cases v with
  | obj ms =>
      have hupgrade : upgrade (obj ms) 1 =
          (document unifyTasks ms >>= document renameLoops).map fun ns =>
            (obj (setMember "version" (int Definition.currentVersion.toNat) ns),
              Definition.currentVersion) := by
        have hcurrent : (1 : UInt32) ≠ Definition.currentVersion := by decide
        simp only [upgrade, if_neg hcurrent, migrations, if_true, List.foldlM_cons, List.foldlM_nil,
          bind_pure]
        cases document unifyTasks ms >>= document renameLoops <;> rfl
      rw [hupgrade, errorOf?_map, Place.fault?, Option.none_or]
      refine Eq.trans ?_ (errorOf?_document ms)
      cases hfirst : document unifyTasks ms with
      | error e => rfl
      | ok ns =>
          obtain ⟨ks, hks⟩ := exists_document_renameLoops hfirst
          exact errorOf?_eq_none.2 ⟨ks, hks⟩
  | _ => rfl

namespace Place

theorem fault?_list {l : Json} : (list l).fault? = none <-> ∃ vs, l = arr vs := by
  cases l <;> simp [fault?]

theorem fault?_block {b : Json} :
    (block b).fault? = none <-> ∃ ms, b = obj ms ∧ typeOf ms ∈ typeNames := by
  cases b <;> simp [fault?]

theorem fault?_document {v : Json} : (document v).fault? = none <-> ∃ ms, v = obj ms := by
  cases v <;> simp [fault?]

end Place

theorem document_not_mem_placesAt (u v : Json) : .document u ∉ placesAt v := by
  induction v using block_induction with
  | step v ih =>
      intro h
      rw [placesAt_eq] at h
      rcases List.mem_cons.1 h with h | h
      · cases h
      · rcases List.mem_flatMap.1 h with ⟨l, hl, h⟩
        rcases List.mem_cons.1 h with h | h
        · cases h
        · rcases List.mem_flatMap.1 h with ⟨b, hb, h⟩
          have hinner : b ∈ innerBlocks v := items_bodies v ▸ List.mem_flatMap.2 ⟨l, hl, hb⟩
          exact ih b hinner h

theorem document_mem_places {u v : Json} : .document u ∈ places v <-> u = v := by
  constructor
  · intro h
    rcases List.mem_cons.1 h with h | h
    · exact Place.document.inj h
    · rcases List.mem_flatMap.1 h with ⟨l, -, h⟩
      rcases List.mem_cons.1 h with h | h
      · cases h
      · rcases List.mem_flatMap.1 h with ⟨b, -, h⟩
        exact absurd h (document_not_mem_placesAt u b)
  · rintro rfl
    exact List.mem_cons_self

theorem firstFault_eq_none {v : Json} : firstFault (places v) = none <->
    (∃ ms, v = obj ms) ∧ (∀ l, .list l ∈ places v -> ∃ vs, l = arr vs) ∧
      ∀ b, .block b ∈ places v -> ∃ ms, b = obj ms ∧ typeOf ms ∈ typeNames := by
  rw [firstFault, List.findSome?_eq_none_iff]
  constructor
  · intro h
    refine ⟨?_, fun l hl => ?_, fun b hb => ?_⟩
    · exact Place.fault?_document.1 (h _ (document_mem_places.2 rfl))
    · exact Place.fault?_list.1 (h _ hl)
    · exact Place.fault?_block.1 (h _ hb)
  · rintro ⟨hdocument, hlists, hblocks⟩ p hp
    cases p with
    | document u =>
        rw [document_mem_places.1 hp]
        exact Place.fault?_document.2 hdocument
    | list l => exact Place.fault?_list.2 (hlists l hp)
    | block b => exact Place.fault?_block.2 (hblocks b hp)

/-- A document of the first version is upgraded exactly when it is an object, all that stands for
lists of blocks are lists, and all that stands for blocks are objects of a type with a known name.
If not, the upgrade fails with the first fault in depth-first order, and never in the second
migration. -/
theorem upgrade_first (v : Json) :
    ((∃ w, upgrade v 1 = .ok w) <->
      (∃ ms, v = obj ms) ∧ (∀ l, .list l ∈ places v -> ∃ vs, l = arr vs) ∧
        ∀ b, .block b ∈ places v -> ∃ ms, b = obj ms ∧ typeOf ms ∈ typeNames) ∧
    (∀ e, upgrade v 1 = .error e <-> ∃ before p after, places v = before ++ p :: after ∧
      p.fault? = some e ∧ ∀ q ∈ before, q.fault? = none) ∧
    ∀ ms ns, document unifyTasks ms = .ok ns -> ∃ ks, document renameLoops ns = .ok ks := by
  refine ⟨?_, fun e => ?_, fun ms ns => exists_document_renameLoops⟩
  · rw [← errorOf?_eq_none, errorOf?_upgrade, firstFault_eq_none]
  · rw [← errorOf?_eq_some, errorOf?_upgrade, firstFault, List.findSome?_eq_some_iff]

end Upgrade
end Workflow
