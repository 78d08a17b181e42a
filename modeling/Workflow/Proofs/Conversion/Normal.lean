import Workflow.CommandLine.Run
import Workflow.Proofs.Conversion.Parameters
import Workflow.Proofs.Likeness.Import
import Workflow.Proofs.Run.Reopening

/-!
# Normal definitions

A definition that was written down is normal: whatever ids it is imported with, the graph is
written down as the same definition again.  The blocks come back because the import lays them out,
the graph has no problems because it matches the one that was written down, and reconciling the
parameters a second time changes nothing.
-/

namespace Workflow

/-!
# Importing what was written down
-/

/-- Written down again as it is, whatever ids it is imported with. -/
def Definition.IsNormal (d : Definition) : Prop :=
  ∀ s : Supply, ∃ g, d.toDraft? s = .ok g ∧ g.graph.toDefinition? d.frontMatter = .ok d

namespace Definition

variable {d d₂ : Definition} {s : Supply} {g : Draft}

theorem IsNormal.save {α : Type} [Length α] (h : d.IsNormal) (settings : LayoutSettings α)
    (s : Supply) : ∃ session, Session.ofDefinition? settings d s = .ok session ∧
      session.save true = .ok d := by
  obtain ⟨g, himport, hexport⟩ := h s
  refine ⟨Session.ofDraft settings d.frontMatter g, ?_, ?_⟩
  · rw [Session.ofDefinition?, himport]
    rfl
  · have hsnapshot : (Session.ofDraft settings d.frontMatter g).snapshot = .ok d := hexport
    rw [Session.save, hsnapshot]
    rfl

end Definition

/-!
# Normalizing on the command line
-/

namespace CommandLine

variable {m : Type -> Type} [Monad m] [LawfulMonad m]

/-- Saves a definition under an id and tells the user. -/
def saveInto (fs : FileAccess m) (folder id : String) (d : Definition) : Attempt m Answer := do
  match <- fs.save folder id d with
  | .error e => throw s!"failed to save {id}: {e.message}"
  | .ok () => return { notice := s!"Saved {id} ({d.blocks.length} top-level blocks)" }

end CommandLine
end Workflow
