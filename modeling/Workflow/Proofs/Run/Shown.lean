import Mathlib.Data.List.Induction
import Workflow.Proofs.Run.Dangling
import Workflow.Proofs.Run.Rebranched

/-!
# Branches along a run

On a run from the empty workflow a conditional has branches, all different, and shows one of them,
as long as none was recorded otherwise.  A recorded conditional is taken as it was recorded, and
each of its defects stays until an edit ends it.  The edges of a conditional show its branch, but
a branch that is declared anew is hidden even if its id is the one that is shown.
-/

namespace Workflow

namespace Draft

variable {d : Draft} {run : Scope -> List String} {stem : String} {k : Command} {id : String}
  {off : String -> String -> Prop}

/-- The block with the id is a conditional of some sort. -/
def Has (d : Draft) (id : String) (P : Conditional -> Prop) : Prop :=
  ∃ c, d.graph.conditional? id = some c ∧ P c

/-- After the command the block is not there or is another one. -/
def Replaces (d : Draft) (stem : String) (k : Command) (id : String) : Prop :=
  (d.apply stem k).draft.graph.conditional? id = none ∨ ∃ kind, k = .retypeNode id kind

/-- The command declares the branch that the conditional shows already, with the edge. -/
def Revives (d : Draft) (k : Command) (id edge : String) : Prop :=
  d.Has id (fun c => k.Declares id c.active c) ∧ edge = d.supply.nextEdge

section Has

variable {P : Conditional -> Prop} {Q : List String × String -> Prop} {c : Conditional}

theorem has_iff (hc : d.graph.conditional? id = some c) : d.Has id P <-> P c := by
  simp [Has, hc]

theorem not_has_of_none (hnone : d.graph.conditional? id = none) : ¬ d.Has id P := by
  intro h
  rcases h with ⟨c, hc, -⟩
  cases hnone.symm.trans hc

theorem Records.has (hr : d.Records stem k id c) (h : d.Laid run) (hQ : Q c.branching) :
    (d.apply stem k).draft.Has id fun c => Q c.branching := by
  rcases (hr.exists_branching h).2 with ⟨c', hc', heq⟩
  rw [← heq] at hQ
  exact ⟨c', hc', hQ⟩

end Has

/-!
# One edit
-/

/-- A defect after an edit was recorded or made by it, or was there and did not end. -/
theorem has_apply_iff {Q : List String × String -> Prop} {H E : Conditional -> Prop}
    (h : d.Laid run) (hfresh : ¬ Q Conditional.fresh.branching)
    (hH : ∀ c, H c -> ∃ b, k = .removeBranch id b)
    (hQ : ∀ c, Q (k.rebranch id c.branching) <-> H c ∨ Q c.branching ∧ ¬ E c) :
    (d.apply stem k).draft.Has id (fun c => Q c.branching) <->
      ((∃ c, d.Records stem k id c ∧ Q c.branching) ∨ d.Has id H) ∨
        d.Has id (fun c => Q c.branching) ∧ ¬ (d.Replaces stem k id ∨ d.Has id E) := by
  cases h.turns stem k id with
  | gone hnone hremove =>
      apply iff_of_false (not_has_of_none hnone)
      intro hor
      rcases hor with (⟨c, hr, hQc⟩ | ⟨c, hc, hHc⟩) | ⟨-, hnot⟩
      · exact not_has_of_none hnone (hr.has h hQc)
      · rcases hH c hHc with ⟨b, hb⟩
        exact hremove c b hc hb
      · exact hnot (Or.inl (Or.inl hnone))
  | made hc' hbranching hnew =>
      have hnever : ¬ (d.apply stem k).draft.Has id (fun c => Q c.branching) := by
        rw [has_iff hc', hbranching]
        exact hfresh
      apply iff_of_false hnever
      intro hor
      rcases hor with (⟨c, hr, hQc⟩ | ⟨c, hc, hHc⟩) | ⟨hhas, hnot⟩
      · exact hnever (hr.has h hQc)
      · rcases hH c hHc with ⟨b, rfl⟩
        rcases hnew with hnone | ⟨kind, heq⟩
        · exact not_has_of_none hnone ⟨c, hc, hHc⟩
        · cases heq
      · rcases hnew with hnone | hretype
        · exact not_has_of_none hnone hhas
        · exact hnot (Or.inl (Or.inr hretype))
  | recorded hnone hc' hr hbranching =>
      constructor
      · intro hhas
        rw [has_iff hc', hbranching] at hhas
        exact Or.inl (Or.inl ⟨_, hr, hhas⟩)
      · intro hor
        rcases hor with (⟨c, hr', hQc⟩ | hhas) | ⟨hhas, -⟩
        · exact hr'.has h hQc
        · exact absurd hhas (not_has_of_none hnone)
        · exact absurd hhas (not_has_of_none hnone)
  | kept hc hc' hbranching hretype =>
      have hold : ¬ ∃ r, d.Records stem k id r ∧ Q r.branching := by
        intro hrecorded
        rcases hrecorded with ⟨r, hr, -⟩
        cases (hr.exists_branching h).1.symm.trans hc
      have hstays : ¬ d.Replaces stem k id := by
        intro hreplaces
        rcases hreplaces with hnone | ⟨kind, heq⟩
        · cases hnone.symm.trans hc'
        · exact hretype kind heq
      rw [has_iff hc', hbranching, hQ, has_iff hc, has_iff hc, has_iff hc]
      simp only [hold, hstays, false_or]

/-- The edges show the branch but for those that a branch came with that was shown already, until
a branch is shown anew. -/
theorem shownBut_apply (h : d.Laid run) (hs : d.graph.ShownBut off) (stem : String)
    (k : Command) : (d.apply stem k).draft.graph.ShownBut fun id edge =>
      d.Revives k id edge ∨ off id edge ∧ ¬ d.Has id (k.Switches id) := by
  have hids := h.shape.distinct
  have hkept : (∀ id c, ¬ k.Switches id c) -> d.graph.ShownBut fun id edge =>
      d.Revives k id edge ∨ off id edge ∧ ¬ d.Has id (k.Switches id) := by
    intro hk
    apply hs.mono
    intro id edge hoff
    refine Or.inr ⟨hoff, fun hhas => ?_⟩
    rcases hhas with ⟨c, -, hc⟩
    exact hk id c hc
  cases k with
  | addNode kind a => exact shownBut_insertBlock h (hkept (by simp [Command.Switches])) stem kind a
  | deleteNode id =>
      exact (hkept (by simp [Command.Switches])).inherit (inherits_removeBlock d id)
  | retypeNode id kind =>
      exact shownBut_retypeBlock h (hkept (by simp [Command.Switches])) stem id kind
  | importRecorded blocks point =>
      exact shownBut_insertRecorded h (hkept (by simp [Command.Switches])) stem blocks point
  | setActiveBranch id branch =>
      apply Graph.shownBut_showBranch hids hs
      intro i edge hoff hrefused
      refine Or.inr ⟨hoff, fun hswitches => ?_⟩
      rcases hswitches with ⟨c, hc, b, hb, heq⟩
      cases heq
      have hhas := Conditional.hasBranch_iff.2 hb
      rw [hrefused rfl c hc] at hhas
      cases hhas
  | addBranch id b =>
      apply shownBut_addBranch h hs id b
      · intro i edge hoff
        refine Or.inr ⟨hoff, fun hswitches => ?_⟩
        rcases hswitches with ⟨c, -, b, -, heq⟩
        cases heq
      · intro c hc hnew hactive
        refine Or.inl ⟨⟨c, hc, b, rfl, hactive.symm, ?_⟩, rfl⟩
        rw [hactive, ← Conditional.hasBranch_iff, hnew]
        exact Bool.false_ne_true
  | removeBranch id branch =>
      exact shownBut_removeBranch h (hkept (by simp [Command.Switches])) id branch
  | updateBlock id b =>
      exact (hkept (by simp [Command.Switches])).inherit (Graph.inherits_updateBlock d.graph id b)
  | relabel id label =>
      exact (hkept (by simp [Command.Switches])).inherit (Graph.inherits_relabel d.graph id label)
  | setContinueOnFailure id value =>
      exact (hkept (by simp [Command.Switches])).inherit (Graph.inherits_mapHeading d.graph id _)
  | setModel id model =>
      exact (hkept (by simp [Command.Switches])).inherit (Graph.inherits_mapHeading d.graph id _)

/-!
# Runs
-/

/-- Something happened on a run and has not been ended since. -/
inductive Since (d : Draft) (happens ends : Draft -> String -> Command -> Prop) :
    List (String × Command) -> Prop where
  | now {commands : List (String × Command)} {stem : String} {k : Command} :
      happens (d.applyAll commands) stem k -> Since d happens ends (commands ++ [(stem, k)])
  | still {commands : List (String × Command)} {stem : String} {k : Command} :
      Since d happens ends commands -> ¬ ends (d.applyAll commands) stem k ->
      Since d happens ends (commands ++ [(stem, k)])

variable {happens ends : Draft -> String -> Command -> Prop}

theorem not_since_nil : ¬ d.Since happens ends [] := by
  generalize hcommands : ([] : List (String × Command)) = commands
  intro h
  cases h <;> simp at hcommands

theorem since_concat_iff {commands : List (String × Command)} :
    d.Since happens ends (commands ++ [(stem, k)]) <->
      happens (d.applyAll commands) stem k ∨
        d.Since happens ends commands ∧ ¬ ends (d.applyAll commands) stem k := by
  constructor
  · generalize hall : commands ++ [(stem, k)] = all
    intro h
    cases h with
    | now hhappens =>
        rcases List.append_inj' hall rfl with ⟨rfl, hlast⟩
        cases hlast
        exact Or.inl hhappens
    | still hsince hends =>
        rcases List.append_inj' hall rfl with ⟨rfl, hlast⟩
        cases hlast
        exact Or.inr ⟨hsince, hends⟩
  · intro h
    rcases h with hhappens | ⟨hsince, hends⟩
    · exact .now hhappens
    · exact .still hsince hends

theorem applyAll_concat (d : Draft) (commands : List (String × Command))
    (entry : String × Command) :
    d.applyAll (commands ++ [entry]) = ((d.applyAll commands).apply entry.1 entry.2).draft :=
  List.foldl_concat ..

/-- What one edit begins and ends holds after a run if it began and has not been ended since. -/
theorem since_iff {P : Draft -> Prop} (s : Supply) (hstart : ¬ P (emptyState s))
    (hstep : ∀ {d run}, Laid d run -> ∀ stem k,
      P (d.apply stem k).draft <-> happens d stem k ∨ P d ∧ ¬ ends d stem k)
    (commands : List (String × Command)) :
    P ((emptyState s).applyAll commands) <-> (emptyState s).Since happens ends commands := by
  induction commands using List.reverseRecOn with
  | nil => exact iff_of_false hstart not_since_nil
  | append_singleton commands entry ih =>
      rcases laid_applyAll s commands with ⟨run, hlaid⟩
      rw [applyAll_concat, since_concat_iff, hstep hlaid, ih]

theorem Since.exists_mem {commands : List (String × Command)} (h : d.Since happens ends commands) :
    ∃ d' stem k, (stem, k) ∈ commands ∧ happens d' stem k := by
  induction h with
  | now hhappens => exact ⟨_, _, _, List.mem_append_right _ List.mem_cons_self, hhappens⟩
  | still _ _ ih =>
      rcases ih with ⟨d', stem, k, hmem, hhappens⟩
      exact ⟨d', stem, k, List.mem_append_left _ hmem, hhappens⟩

/-!
# Defects on a run
-/

/-- A conditional was recorded without branches, or all it had went as one.  It was given none
since. -/
def Emptied (d : Draft) (commands : List (String × Command)) (id : String) : Prop :=
  d.Since
    (fun d stem k => (∃ r, d.Records stem k id r ∧ r.branchIds = []) ∨ d.Has id (k.Strips id))
    (fun d stem k => d.Replaces stem k id ∨ d.Has id fun c => ∃ branch, k.Declares id branch c)
    commands

/-- A conditional was recorded with several branches of one id.  They were not taken back since. -/
def Doubled (d : Draft) (commands : List (String × Command)) (id branch : String) : Prop :=
  d.Since
    (fun d stem k => ∃ r, d.Records stem k id r ∧ 1 < r.branchIds.count branch)
    (fun d stem k => d.Replaces stem k id ∨ d.Has id (k.TakesBack id branch))
    commands

/-- A conditional was recorded with a branch shown that it does not have, or all it had went as
one.  Since then it was neither switched nor given the branch it shows. -/
def Adrift (d : Draft) (commands : List (String × Command)) (id : String) : Prop :=
  d.Since
    (fun d stem k =>
      (∃ r, d.Records stem k id r ∧ r.active ∉ r.branchIds) ∨ d.Has id (k.Strips id))
    (fun d stem k =>
      d.Replaces stem k id ∨ d.Has id fun c => k.Switches id c ∨ k.Declares id c.active c)
    commands

/-- An edge came with a branch that its conditional showed already.  No branch of it was shown
since. -/
def Revived (d : Draft) (commands : List (String × Command)) (id edge : String) : Prop :=
  d.Since (fun d _ k => d.Revives k id edge) (fun d _ k => d.Has id (k.Switches id)) commands

theorem not_has_emptyState (s : Supply) (id : String) (P : Conditional -> Prop) :
    ¬ (emptyState s).Has id P := by
  intro h
  rcases h with ⟨c, hc, -⟩
  have hempty : Graph.empty.shape.ids.Nodup := List.nodup_nil
  rcases (inherits_emptyState s .empty).conditional? hempty hc with ⟨c', hc', -⟩
  cases hc'

/-- A defect is there after a run if it was recorded or made and has not been ended since. -/
theorem has_applyAll_iff {Q : List String × String -> Prop}
    {H E : Command -> Conditional -> Prop} (s : Supply) (id : String)
    (hfresh : ¬ Q Conditional.fresh.branching)
    (hH : ∀ k c, H k c -> ∃ b, k = .removeBranch id b)
    (hQ : ∀ k c, Q (k.rebranch id c.branching) <-> H k c ∨ Q c.branching ∧ ¬ E k c)
    (commands : List (String × Command)) :
    ((emptyState s).applyAll commands).Has id (fun c => Q c.branching) <->
      (emptyState s).Since
        (fun d stem k => (∃ r, d.Records stem k id r ∧ Q r.branching) ∨ d.Has id (H k))
        (fun d stem k => d.Replaces stem k id ∨ d.Has id (E k)) commands := by
  refine since_iff (P := fun d => d.Has id fun c => Q c.branching) s
    (not_has_emptyState s id _) ?_ commands
  intro d run h stem k
  exact has_apply_iff h hfresh (hH k) (hQ k)

section Runs

variable {s : Supply} {commands : List (String × Command)} {c : Conditional}

theorem emptied_iff : ((emptyState s).applyAll commands).Has id (fun c => c.branchIds = []) <->
    (emptyState s).Emptied commands id :=
  has_applyAll_iff (Q := fun v => v.1 = []) s id (by decide)
    (fun _ _ h => h.exists_eq) (fun _ _ => Command.rebranch_eq_nil_iff) commands

theorem doubled_iff {branch : String} :
    ((emptyState s).applyAll commands).Has id (fun c => 1 < c.branchIds.count branch) <->
      (emptyState s).Doubled commands id branch := by
  have hfresh := List.nodup_iff_count_le_one.1 Conditional.coherent_fresh.distinct branch
  have hiff := has_applyAll_iff (Q := fun v => 1 < v.1.count branch) (H := fun _ _ => False) s id
    (Nat.not_lt.2 hfresh) (fun _ _ h => h.elim)
    (fun _ _ => Command.count_rebranch_iff.trans (iff_of_eq (false_or _)).symm) commands
  have hnever : ∀ d : Draft, ¬ d.Has id fun _ => False := fun d h => h.choose_spec.2
  simp only [hnever, or_false] at hiff
  exact hiff

theorem adrift_iff :
    ((emptyState s).applyAll commands).Has id (fun c => c.active ∉ c.branchIds) <->
      (emptyState s).Adrift commands id :=
  has_applyAll_iff (Q := fun v => v.2 ∉ v.1) s id (by decide)
    (fun _ _ h => h.exists_eq) (fun _ _ => Command.not_mem_rebranch_iff) commands

theorem shownBut_emptyState (s : Supply) : (emptyState s).graph.ShownBut off := by
  apply Graph.ShownBut.inherit (g := .empty) _ (inherits_emptyState s _)
  intro n hn
  cases hn

theorem shownBut_applyAll (s : Supply) (commands : List (String × Command)) :
    ((emptyState s).applyAll commands).graph.ShownBut ((emptyState s).Revived commands) := by
  induction commands using List.reverseRecOn with
  | nil => exact shownBut_emptyState s
  | append_singleton commands entry ih =>
      rcases laid_applyAll s commands with ⟨run, hlaid⟩
      rw [applyAll_concat]
      apply (shownBut_apply hlaid ih entry.1 entry.2).mono
      intro id edge h
      rw [Revived, since_concat_iff]
      exact h

/-- Along a run from the empty workflow a conditional has branches, all different, and shows one of
them, but for what was recorded otherwise and has not been mended since.  Its edges show its branch,
but for those that a branch came with that it showed already. -/
theorem coherent_and_shows
    (hc : ((emptyState s).applyAll commands).graph.conditional? id = some c) :
    (c.branchIds ≠ [] ∨ (emptyState s).Emptied commands id) ∧
    (∀ branch, c.branchIds.count branch <= 1 ∨ (emptyState s).Doubled commands id branch) ∧
    (c.active ∈ c.branchIds ∨ (emptyState s).Adrift commands id) ∧
    ∀ e ∈ ((emptyState s).applyAll commands).graph.edges, ∀ branch, e.tag = some ⟨id, branch⟩ ->
      (e.hidden <-> branch ≠ c.active) ∨
        branch = c.active ∧ (emptyState s).Revived commands id e.id := by
  refine ⟨?_, fun branch => ?_, ?_, (shownBut_applyAll s commands).at hc⟩
  · rw [← emptied_iff, has_iff hc]
    exact (Classical.em _).symm
  · rw [← doubled_iff, has_iff hc]
    exact Nat.lt_or_ge _ _ |>.symm
  · rw [← adrift_iff, has_iff hc]
    exact Classical.em _

end Runs

/-- A conditional is recorded with a branch shown that it does not have. -/
def misrecorded : List (String × Command) :=
  [("block", .importRecorded
    [⟨.conditional ⟨[{ id := "a", label := "A" }], "ghost"⟩, false, none⟩]
    ⟨⟨some "#1", some "#2", none, none⟩, none⟩)]

theorem coherent_and_shows_misrecorded :
    ∃ c, ((emptyState {}).applyAll (misrecorded ++ [("block", .setActiveBranch "#3" "a")])
        ).graph.conditional? "#3" = some c ∧
      c.branchIds = ["a"] ∧ c.active ∈ c.branchIds ∧
      ((emptyState {}).applyAll (misrecorded ++ [("block", .setActiveBranch "#3" "a")])
        ).graph.Shows "#3" c.active := by
  have hrecorded : ((emptyState {}).applyAll misrecorded).graph.conditional? "#3" =
      some ⟨[{ id := "a", label := "A" }], "ghost"⟩ := by
    decide +kernel
  have hc : ((emptyState {}).applyAll (misrecorded ++ [("block", .setActiveBranch "#3" "a")])
      ).graph.conditional? "#3" = some ⟨[{ id := "a", label := "A" }], "a"⟩ := by
    decide +kernel
  rcases coherent_and_shows hc with ⟨-, -, hactive, hedges⟩
  refine ⟨_, hc, rfl, hactive.resolve_right ?_, ?_⟩
  · intro hadrift
    rw [Adrift, since_concat_iff] at hadrift
    rcases hadrift with (⟨r, ⟨blocks, point, r', hk, -⟩, -⟩ | ⟨c, -, hstrips⟩) | ⟨-, hends⟩
    · cases hk
    · rcases hstrips.exists_eq with ⟨branch, hk⟩
      cases hk
    · exact hends (Or.inr ⟨_, hrecorded, Or.inl ⟨"a", by decide, rfl⟩⟩)
  · intro e he branch ht
    rcases hedges e he branch ht with hshows | ⟨-, hrevived⟩
    · exact hshows
    · rcases hrevived.exists_mem with ⟨d, stem, k, hmem, ⟨c, -, b, rfl, -⟩, -⟩
      simp [misrecorded] at hmem

/-- A conditional without branches is recorded, and then gets the branch that it shows. -/
def revivedCommands : List (String × Command) :=
  [("block", .importRecorded [⟨.conditional ⟨[], "ghost"⟩, false, none⟩]
      ⟨⟨some "#1", some "#2", none, none⟩, none⟩),
    ("block", .addBranch "#3" { id := "ghost", label := "Ghost" })]

/-- A conditional is recorded with one branch listed twice. -/
def repeatedCommands : List (String × Command) :=
  [("block", .importRecorded
    [⟨.conditional ⟨[{ id := "a", label := "A" }, { id := "a", label := "A" }], "a"⟩, false, none⟩]
    ⟨⟨some "#1", some "#2", none, none⟩, none⟩)]

theorem not_coherent_revived :
    (∃ c, ((emptyState {}).applyAll (revivedCommands.take 1)).graph.conditional? "#3" = some c ∧
      c.branchIds = [] ∧ c.active ∉ c.branchIds) ∧
    (∃ c, ((emptyState {}).applyAll repeatedCommands).graph.conditional? "#3" = some c ∧
      ¬ c.branchIds.Nodup) ∧
    ∃ c, ((emptyState {}).applyAll revivedCommands).graph.conditional? "#3" = some c ∧
      c.Coherent ∧ ¬ ((emptyState {}).applyAll revivedCommands).graph.Shows "#3" c.active := by
  constructor
  · exact ⟨⟨[], "ghost"⟩, by decide +kernel, by decide, by decide⟩
  constructor
  · refine ⟨⟨[{ id := "a", label := "A" }, { id := "a", label := "A" }], "a"⟩, ?_, by decide⟩
    decide +kernel
  · refine ⟨⟨[{ id := "ghost", label := "Ghost" }], "ghost"⟩, by decide +kernel, ?_, ?_⟩
    · exact ⟨by decide, by decide, by decide⟩
    · intro hshows
      have hhidden : ∃ e ∈ ((emptyState {}).applyAll revivedCommands).graph.edges,
          e.tag = some ⟨"#3", "ghost"⟩ ∧ e.hidden = true := by
        decide +kernel
      rcases hhidden with ⟨e, he, ht, hhidden⟩
      exact (hshows e he "ghost" ht).1 hhidden rfl

end Draft
end Workflow
