import Workflow.Proofs.Reference.Draft
import Workflow.Proofs.Run.Basic

/-!
# References that dangle

Edits leave every reference settled, except that a branch may be added with a merge label
that no block carries.  That label is kept and dangles.  Along a run of edits nothing dangles
exactly when no such branch is added.
-/

namespace Workflow

theorem Block.field_eq_mergeLabel {b : Block} {field : Field} {l : String}
    (h : (field, .label l) ∈ b.references) : ∃ i, field = .mergeLabel i := by
  have hkey : ∀ key, Reference.ofKey key ≠ .label l := by
    intro key
    rw [Reference.ofKey]
    cases OutputKey.label? key <;> simp
  cases b with
  | leaf a =>
      obtain ⟨x, -, heq⟩ := List.mem_map.1 h
      exact absurd (congrArg Prod.snd heq) (hkey _)
  | loop a =>
      cases hkeys : a.loopOver with
      | none => simp [references, hkeys] at h
      | some key =>
          simp only [references, hkeys, List.mem_singleton, Prod.mk.injEq] at h
          exact absurd h.2.symm (hkey key)
  | conditional c =>
      obtain ⟨x, -, heq⟩ := List.mem_filterMap.1 h
      obtain ⟨m, -, heq⟩ := Option.map_eq_some_iff.1 heq
      exact ⟨x.2, (congrArg Prod.fst heq).symm⟩

namespace Draft

variable {d : Draft} {run : Scope -> List String} {stray : String -> Prop}

/-- A command that adds a branch with a merge label that no block carries. -/
def Strays (d : Draft) (c : Command) (l : String) : Prop :=
  ∃ id b c', c = .addBranch id b ∧ d.graph.conditional? id = some c' ∧
    c'.hasBranch b.id = false ∧ b.mergeLabel = some l ∧ l ∉ d.graph.labels

/-- Somewhere on a run such a command is applied. -/
def Strayed (d : Draft) (commands : List (String × Command)) (l : String) : Prop :=
  ∃ before stem c after, commands = before ++ (stem, c) :: after ∧
    (d.applyAll before).Strays c l

theorem strayed_cons {stem : String} {c : Command} {commands : List (String × Command)}
    {l : String} : d.Strayed ((stem, c) :: commands) l <->
      d.Strays c l ∨ (d.apply stem c).draft.Strayed commands l := by
  constructor
  · rintro ⟨before, stem', c', after, hsplit, hstrays⟩
    cases before with
    | nil =>
        cases hsplit
        exact Or.inl hstrays
    | cons first before =>
        cases hsplit
        exact Or.inr ⟨before, stem', c', after, rfl, hstrays⟩
  · rintro (hstrays | ⟨before, stem', c', after, rfl, hstrays⟩)
    · exact ⟨[], stem, c, commands, rfl, hstrays⟩
    · exact ⟨(stem, c) :: before, stem', c', after, rfl, hstrays⟩

/-!
# One edit
-/

theorem settledBut_apply (h : d.Laid run) (hs : d.graph.SettledBut stray) (stem : String)
    (c : Command) (hstray : ∀ l, d.Strays c l -> stray l) :
    (d.apply stem c).draft.graph.SettledBut stray := by
  have hids := h.shape.distinct
  cases c with
  | addNode kind a => exact settledBut_insertBlock hs stem kind a
  | deleteNode id => exact settledBut_removeBlock h hs id
  | retypeNode id kind => exact settledBut_retypeBlock h hs stem id kind
  | importRecorded blocks point => exact settledBut_insertRecorded h hs stem blocks point
  | setActiveBranch id branch => exact Graph.settledBut_showBranch id branch hs
  | addBranch id b =>
      refine settledBut_addBranch hs id b fun c l hc hnew hmerge => ?_
      by_cases hl : l ∈ d.graph.labels
      · exact Or.inl hl
      · exact Or.inr (hstray l ⟨id, b, c, rfl, hc, hnew, hmerge, hl⟩)
  | removeBranch id branch => exact settledBut_removeBranch h hs id branch
  | updateBlock id b => exact Graph.settledBut_updateBlock hids id b hs
  | relabel id label => exact Graph.settledBut_relabel hids id label hs
  | setContinueOnFailure id value => exact Graph.settledBut_mapHeading id (fun _ => rfl) hs
  | setModel id model => exact Graph.settledBut_mapHeading id (fun _ => rfl) hs

theorem exists_dangling_of_strays (h : d.Laid run) {c : Command} {l : String} (hs : d.Strays c l)
    (stem : String) : ∃ place, (l, place) ∈ (d.apply stem c).draft.graph.dangling := by
  obtain ⟨id, b, c', rfl, hc, hnew, hmerge, hl⟩ := hs
  obtain ⟨run', hlaid⟩ := h.apply stem (.addBranch id b)
  obtain ⟨start, marker, -, -, hadd⟩ := exists_addBranch_eq h hc b hnew
  let f : Conditional -> Conditional := fun c => { c with branches := c.branches ++ [b] }
  obtain ⟨heading, u, v, hcontents, hchanged⟩ := Graph.contents_modifyConditional (f := f) hc
  have hadded : (d.apply stem (.addBranch id b)).draft.graph.contents =
      u ++ (heading, .conditional (f c')) :: v := by
    rw [← hchanged, apply, hadd]
    rfl
  have hheld : Reference.label l ∈ (Block.conditional (f c')).held := by
    refine List.mem_map_of_mem (List.mem_filterMap.2 ⟨b, ?_, hmerge⟩)
    exact List.mem_append_right _ (List.mem_singleton.2 rfl)
  refine Graph.exists_mem_dangling hlaid.shape.distinct (r := .label l) ?_ rfl ?_
  · exact ⟨_, hadded ▸ List.mem_append_right u List.mem_cons_self, hheld⟩
  · rw [Graph.labels_eq_contents, hcontents] at hl
    rw [Graph.labels_eq_contents, hadded]
    simpa using hl

/-!
# Runs
-/

theorem settledBut_applyAll (commands : List (String × Command)) : ∀ {d : Draft} {run},
    d.Laid run -> d.graph.SettledBut stray -> (∀ l, d.Strayed commands l -> stray l) ->
      (d.applyAll commands).graph.SettledBut stray := by
  induction commands with
  | nil => exact fun _ hs _ => hs
  | cons entry commands ih =>
      intro d run h hs hstray
      obtain ⟨stem, c⟩ := entry
      obtain ⟨run', hlaid⟩ := h.apply stem c
      refine ih hlaid (settledBut_apply h hs stem c fun l hl => ?_) fun l hl => ?_
      · exact hstray l (strayed_cons.2 (Or.inl hl))
      · exact hstray l (strayed_cons.2 (Or.inr hl))

theorem laid_applyAll (s : Supply) (commands : List (String × Command)) :
    ∃ run, ((emptyState s).applyAll commands).Laid run :=
  (reachable_applyAll s commands).laid

/-- What dangles after a run is a merge label that strayed on it. -/
theorem strayed_of_mem_dangling {s : Supply} {commands : List (String × Command)} {l : String}
    {place : Place} (h : (l, place) ∈ ((emptyState s).applyAll commands).graph.dangling) :
    (∃ i, place.field = .mergeLabel i) ∧ (emptyState s).Strayed commands l := by
  obtain ⟨run, hlaid⟩ := laid_applyAll s commands
  have hsettled := settledBut_applyAll commands (laid_emptyState s) (settledBut_emptyState s)
    fun l hl => hl
  obtain ⟨n, hn, b, hb, field, r, hr, hl, hnot, rfl⟩ := (Graph.mem_dangling hlaid.shape.distinct).1 h
  rcases hsettled r (Graph.holds_of_mem_references hn hb hr) l hl with hlabel | ⟨rfl, hstrayed⟩
  · exact absurd hlabel hnot
  · exact ⟨Block.field_eq_mergeLabel hr, hstrayed⟩

/-- Along a run from the empty workflow only merge labels dangle that came with a branch when no
block carried them, and as soon as one comes like that it does dangle. -/
theorem dangling_eq_nil_iff_not_strayed (s : Supply) (commands : List (String × Command)) :
    (∀ l place, (l, place) ∈ ((emptyState s).applyAll commands).graph.dangling ->
      (∃ i, place.field = .mergeLabel i) ∧ (emptyState s).Strayed commands l) ∧
    ((∀ before, before <+: commands -> ((emptyState s).applyAll before).graph.dangling = []) <->
      ∀ l, ¬ (emptyState s).Strayed commands l) := by
  refine ⟨fun l place h => strayed_of_mem_dangling h, ?_, ?_⟩
  · rintro hclean l ⟨before, stem, c, after, rfl, hstrays⟩
    obtain ⟨run, hlaid⟩ := laid_applyAll s before
    obtain ⟨place, hmem⟩ := exists_dangling_of_strays hlaid hstrays stem
    have hnil := hclean (before ++ [(stem, c)]) ⟨after, by simp⟩
    rw [applyAll, List.foldl_append] at hnil
    have hmem : (l, place) ∈ ([] : List (String × Place)) := hnil ▸ hmem
    cases hmem
  · rintro hnot before ⟨after, rfl⟩
    rw [List.eq_nil_iff_forall_not_mem]
    rintro ⟨l, place⟩ hmem
    obtain ⟨first, stem, c, rest, rfl, hstrays⟩ := (strayed_of_mem_dangling hmem).2
    exact hnot l ⟨first, stem, c, rest ++ after, by simp, hstrays⟩

/-- A conditional gets a branch that is to merge at a block that is not there. -/
def ghostCommands : List (String × Command) :=
  [("block", .addNode .conditional ⟨some "#1", some "#2", none, none⟩),
    ("block", .addBranch "#3" { id := "x", label := "X", mergeLabel := some "ghost" })]

theorem dangling_ghostCommands : ((emptyState {}).applyAll ghostCommands).graph.dangling =
    [("ghost", ⟨"#3", .mergeLabel 2⟩)] := by
  decide +kernel

end Draft
end Workflow
