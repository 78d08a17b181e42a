import Workflow.Proofs.Conversion.Import
import Workflow.Proofs.Edit.Branching
import Workflow.Proofs.Edit.Insertion

/-!
# Runs of edits

A run begins with the empty workflow or with an imported definition and applies any
commands in any order.  Every draft on a run is laid out.
-/

namespace Workflow
namespace Draft

/-- The drafts that some drafts are edited into by any commands. -/
inductive Edited (start : Draft -> Prop) : Draft -> Prop where
  | start {d : Draft} : start d -> Edited start d
  | edit {d : Draft} (stem : String) (c : Command) : Edited start d ->
      Edited start (d.apply stem c).draft

/-- Applies commands one after another, each with the stem of its fresh labels. -/
def applyAll (d : Draft) (commands : List (String × Command)) : Draft :=
  commands.foldl (fun d c => (d.apply c.1 c.2).draft) d

/-- The empty workflow. -/
def IsEmpty (d : Draft) : Prop :=
  ∃ s, d = emptyState s

/-- An imported definition whose conditionals have distinct branches. -/
def IsImport (d : Draft) : Prop :=
  ∃ (definition : Definition) (s : Supply),
    definition.DistinctBranches ∧ definition.toDraft? s = .ok d

/-- The drafts that editing can reach. -/
def Reachable : Draft -> Prop :=
  Edited fun d => d.IsEmpty ∨ d.IsImport

/-- What holds at the start and is kept by every command holds on every run. -/
theorem Edited.invariant {start : Draft -> Prop} (P : Draft -> Prop) (hstart : ∀ d, start d -> P d)
    (hedit : ∀ d stem c, P d -> P (d.apply stem c).draft) {d : Draft} (h : Edited start d) :
    P d := by
  induction h with
  | start h => exact hstart _ h
  | edit stem c _ ih => exact hedit _ stem c ih

theorem Edited.applyAll {start : Draft -> Prop} {d : Draft} (h : Edited start d)
    (commands : List (String × Command)) : Edited start (d.applyAll commands) := by
  induction commands generalizing d with
  | nil => exact h
  | cons c commands ih => exact ih (h.edit c.1 c.2)

theorem reachable_applyAll (s : Supply) (commands : List (String × Command)) :
    ((emptyState s).applyAll commands).Reachable :=
  Edited.applyAll (.start (Or.inl ⟨s, rfl⟩)) commands

/-!
# Every draft on a run is laid out
-/

theorem Laid.apply {d : Draft} {run : Scope -> List String} (h : d.Laid run) (stem : String)
    (c : Command) : ∃ run', (d.apply stem c).draft.Laid run' := by
  cases c with
  | addNode kind a => exact h.insertBlock stem kind a
  | deleteNode id => exact h.removeBlock id
  | retypeNode id kind => exact h.retypeBlock stem id kind
  | importRecorded blocks point => exact h.insertRecorded stem blocks point
  | setActiveBranch id branch =>
      exact ⟨run, h.modify (f := (·.showBranch id branch)) (Graph.shape_showBranch _ id branch)⟩
  | addBranch id b => exact h.addBranch id b
  | removeBranch id branch => exact h.removeBranch id branch
  | updateBlock id b =>
      exact ⟨run, h.modify (f := (·.updateBlock id b)) (Graph.shape_updateBlock _ id b)⟩
  | relabel id label =>
      exact ⟨run, h.modify (f := (·.relabel id label)) (Graph.shape_relabel _ id label)⟩
  | setContinueOnFailure id value =>
      exact ⟨run, h.modify (f := (·.setContinueOnFailure id value))
        (Graph.shape_mapHeading _ id _)⟩
  | setModel id model =>
      exact ⟨run, h.modify (f := (·.setModel id model)) (Graph.shape_mapHeading _ id _)⟩

theorem Reachable.laid {d : Draft} (h : d.Reachable) : ∃ run, d.Laid run := by
  refine Edited.invariant (fun d => ∃ run, d.Laid run) (fun d hd => ?_)
    (fun d stem c ⟨run, hd⟩ => hd.apply stem c) h
  rcases hd with ⟨s, rfl⟩ | ⟨definition, s, hbranches, hok⟩
  · exact ⟨_, laid_emptyState s⟩
  · exact Definition.laid_toDraft? hbranches hok

end Draft
end Workflow
