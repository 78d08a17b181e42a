import Mathlib.Data.List.Nodup
import Workflow.Conversion.ToDraft

/-!
# Labels of imported definitions

The labels of a definition are taken one after another along its nesting, which is the order of the
document.  So an import gets through when they are all different, and it stops at the first block
whose label a block before it has.
-/

namespace Workflow

/-!
# Taking labels in document order
-/

namespace Descriptor

mutual

theorem takeLabels_eq : ∀ (x : Descriptor) (taken : List String),
    x.takeLabels taken = (x.inOrder.map label).foldlM takeLabel taken
  | .leaf h l, taken => by
      rw [takeLabels, inOrder, List.map_singleton, List.foldlM_cons]
      exact (bind_pure _).symm
  | .loop h a children, taken => by
      rw [takeLabels, inOrder, List.map_cons, List.foldlM_cons]
      exact bind_congr fun taken => takeListLabels_eq children taken
  | .conditional h branches, taken => by
      rw [takeLabels, inOrder, List.map_cons, List.foldlM_cons]
      exact bind_congr fun taken => takeBranchLabels_eq branches taken

theorem takeListLabels_eq : ∀ (xs : List Descriptor) (taken : List String),
    takeListLabels taken xs = ((listInOrder xs).map label).foldlM takeLabel taken
  | [], taken => rfl
  | x :: xs, taken => by
      rw [takeListLabels, listInOrder, List.map_append, List.foldlM_append, takeLabels_eq x]
      exact bind_congr fun taken => takeListLabels_eq xs taken

theorem takeBranchLabels_eq : ∀ (branches : List (Branch × List Descriptor))
    (taken : List String), takeBranchLabels taken branches =
      ((branchesInOrder branches).map label).foldlM takeLabel taken
  | [], taken => rfl
  | (b, children) :: rest, taken => by
      rw [takeBranchLabels, branchesInOrder, List.map_append, List.foldlM_append,
        takeListLabels_eq children]
      exact bind_congr fun taken => takeBranchLabels_eq rest taken

end

end Descriptor

theorem takeLabel_eq_ok {taken after : List String} {l : String} :
    takeLabel taken l = .ok after <-> l ∉ taken ∧ after = l :: taken := by
  by_cases h : l ∈ taken <;> simp [takeLabel, h, eq_comm]

theorem takeLabel_eq_error {taken : List String} {l : String} {e : ImportError} :
    takeLabel taken l = .error e <-> l ∈ taken ∧ e = .duplicateLabel l := by
  by_cases h : l ∈ taken <;> simp [takeLabel, h, eq_comm]

theorem foldlM_takeLabel_eq_ok {labels : List String} : ∀ {taken after : List String},
    labels.foldlM takeLabel taken = .ok after <->
      labels.Nodup ∧ (∀ l ∈ labels, l ∉ taken) ∧ after = labels.reverse ++ taken := by
  induction labels with
  | nil => simp [pure, Except.pure, eq_comm]
  | cons l rest ih =>
      intro taken after
      rw [List.foldlM_cons]
      cases htake : takeLabel taken l with
      | error e =>
          obtain ⟨htaken, -⟩ := takeLabel_eq_error.1 htake
          constructor
          · intro h
            cases h
          · rintro ⟨-, hfresh, -⟩
            exact absurd htaken (hfresh l List.mem_cons_self)
      | ok both =>
          obtain ⟨htaken, rfl⟩ := takeLabel_eq_ok.1 htake
          refine ih.trans ?_
          simp only [List.mem_cons, not_or, List.nodup_cons, List.reverse_cons, List.append_assoc,
            List.singleton_append]
          constructor
          · rintro ⟨hnodup, hfresh, rfl⟩
            refine ⟨⟨fun hl => (hfresh l hl).1 rfl, hnodup⟩, ?_, rfl⟩
            rintro i (rfl | hi)
            · exact htaken
            · exact (hfresh i hi).2
          · rintro ⟨⟨hl, hnodup⟩, hfresh, rfl⟩
            refine ⟨hnodup, fun i hi => ⟨?_, hfresh i (Or.inr hi)⟩, rfl⟩
            rintro rfl
            exact hl hi

theorem foldlM_eq_error {α β ε : Type} {f : α -> β -> Except ε α} {xs : List β} {e : ε} :
    ∀ {a : α}, xs.foldlM f a = .error e <->
      ∃ before x after b, xs = before ++ x :: after ∧ before.foldlM f a = .ok b ∧
        f b x = .error e := by
  induction xs with
  | nil =>
      intro a
      constructor
      · intro h
        cases h
      · rintro ⟨before, x, after, b, hxs, -, -⟩
        exact absurd hxs.symm (List.append_ne_nil_of_right_ne_nil before (List.cons_ne_nil x after))
  | cons y ys ih =>
      intro a
      rw [List.foldlM_cons]
      cases hstep : f a y with
      | error e' =>
          constructor
          · intro h
            cases h
            exact ⟨[], y, ys, a, rfl, rfl, hstep⟩
          · rintro ⟨_ | ⟨z, before⟩, x, after, b, hxs, hbefore, hx⟩
            · cases hxs
              cases hbefore
              exact hstep.symm.trans hx
            · cases hxs
              rw [List.foldlM_cons, hstep] at hbefore
              cases hbefore
      | ok c =>
          refine ih.trans ?_
          constructor
          · rintro ⟨before, x, after, b, rfl, hbefore, hx⟩
            refine ⟨y :: before, x, after, b, rfl, ?_, hx⟩
            rw [List.foldlM_cons, hstep]
            exact hbefore
          · rintro ⟨_ | ⟨z, before⟩, x, after, b, hxs, hbefore, hx⟩
            · cases hxs
              cases hbefore
              cases hstep.symm.trans hx
            · cases hxs
              rw [List.foldlM_cons, hstep] at hbefore
              exact ⟨before, x, after, b, rfl, hbefore, hx⟩

theorem foldlM_takeLabel_eq_error {labels : List String} {e : ImportError} :
    labels.foldlM takeLabel [] = .error e <-> ∃ before l after, labels = before ++ l :: after ∧
      before.Nodup ∧ l ∈ before ∧ e = .duplicateLabel l := by
  rw [foldlM_eq_error]
  constructor
  · rintro ⟨before, l, after, taken, hlabels, hbefore, hl⟩
    obtain ⟨hnodup, -, rfl⟩ := foldlM_takeLabel_eq_ok.1 hbefore
    obtain ⟨htaken, rfl⟩ := takeLabel_eq_error.1 hl
    refine ⟨before, l, after, hlabels, hnodup, ?_, rfl⟩
    simpa using htaken
  · rintro ⟨before, l, after, hlabels, hnodup, hl, rfl⟩
    have hfresh : ∀ i ∈ before, i ∉ ([] : List String) := fun i _ => List.not_mem_nil
    refine ⟨before, l, after, _, hlabels, foldlM_takeLabel_eq_ok.2 ⟨hnodup, hfresh, rfl⟩, ?_⟩
    exact takeLabel_eq_error.2 ⟨by simpa using hl, rfl⟩

/-!
# Imports
-/

namespace Definition

variable {d : Definition} {s : Supply} {g : Draft}

theorem takeListLabels_blocks (d : Definition) :
    Descriptor.takeListLabels [] d.blocks = d.labels.foldlM takeLabel [] :=
  Descriptor.takeListLabels_eq d.blocks []

theorem toDraft?_eq_ok_iff : d.toDraft? s = .ok g <->
    d.version = currentVersion ∧ d.labels.Nodup ∧ g = Draft.ofBlocks s d.blocks := by
  rw [toDraft?, takeListLabels_blocks]
  by_cases hversion : d.version = currentVersion
  · rw [if_neg (not_not.2 hversion)]
    cases htake : d.labels.foldlM takeLabel [] with
    | error e =>
        constructor
        · intro h
          cases h
        · rintro ⟨-, hlabels, -⟩
          have hok := foldlM_takeLabel_eq_ok.2 ⟨hlabels, fun _ _ => List.not_mem_nil, rfl⟩
          cases htake.symm.trans hok
    | ok taken =>
        obtain ⟨hlabels, -, -⟩ := foldlM_takeLabel_eq_ok.1 htake
        constructor
        · intro h
          cases h
          exact ⟨hversion, hlabels, rfl⟩
        · rintro ⟨-, -, rfl⟩
          rfl
  · rw [if_pos hversion]
    constructor
    · intro h
      cases h
    · rintro ⟨heq, -, -⟩
      exact absurd heq hversion

theorem eq_of_toDraft? (h : d.toDraft? s = .ok g) :
    d.version = currentVersion ∧ d.labels.Nodup ∧ g = Draft.ofBlocks s d.blocks :=
  toDraft?_eq_ok_iff.1 h

theorem toDraft?_eq_ok (s : Supply) (hversion : d.version = currentVersion)
    (hlabels : d.labels.Nodup) : d.toDraft? s = .ok (Draft.ofBlocks s d.blocks) :=
  toDraft?_eq_ok_iff.2 ⟨hversion, hlabels, rfl⟩

theorem exists_toDraft?_iff_labels (d : Definition) (s : Supply) :
    (∃ g, d.toDraft? s = .ok g) <-> d.version = currentVersion ∧ d.labels.Nodup := by
  constructor
  · rintro ⟨g, h⟩
    obtain ⟨hversion, hlabels, -⟩ := eq_of_toDraft? h
    exact ⟨hversion, hlabels⟩
  · rintro ⟨hversion, hlabels⟩
    exact ⟨_, toDraft?_eq_ok s hversion hlabels⟩

/-- Of two blocks with one label it is the second that stops an import. -/
theorem toDraft?_eq_error_iff (hversion : d.version = currentVersion) {e : ImportError} :
    d.toDraft? s = .error e <-> ∃ before x after, d.allBlocks = before ++ x :: after ∧
      (before.map Descriptor.label).Nodup ∧ x.label ∈ before.map Descriptor.label ∧
        e = .duplicateLabel x.label := by
  have herror : d.toDraft? s = .error e <-> d.labels.foldlM takeLabel [] = .error e := by
    rw [toDraft?, takeListLabels_blocks, if_neg (not_not.2 hversion)]
    cases d.labels.foldlM takeLabel [] with
    | error e' =>
        constructor
        · intro h
          cases h
          rfl
        · intro h
          cases h
          rfl
    | ok taken =>
        constructor
        · intro h
          cases h
        · intro h
          cases h
  rw [herror, foldlM_takeLabel_eq_error]
  constructor
  · rintro ⟨before, l, after, hlabels, hnodup, hl, rfl⟩
    obtain ⟨xs, rest, hblocks, rfl, hrest⟩ := List.map_eq_append_iff.1 hlabels
    obtain ⟨x, ys, rfl, rfl, rfl⟩ := List.map_eq_cons_iff.1 hrest
    exact ⟨xs, x, ys, hblocks, hnodup, hl, rfl⟩
  · rintro ⟨before, x, after, hblocks, hnodup, hx, rfl⟩
    refine ⟨before.map Descriptor.label, x.label, after.map Descriptor.label, ?_, hnodup, hx, rfl⟩
    rw [labels, hblocks, List.map_append, List.map_cons]

end Definition
end Workflow
