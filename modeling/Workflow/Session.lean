import Workflow.Conversion.ToDefinition
import Workflow.Conversion.ToDraft
import Workflow.Edit.Command
import Workflow.Layout.Basic

/-!
# Sessions

A session edits one workflow and keeps its layout up to date.  An edit that changes the
graph is one revision and one layout pass; so is a size that is measured anew, without
being a revision.
-/

namespace Workflow

structure Session (α : Type) where
  draft : Draft
  front : FrontMatter
  settings : LayoutSettings α
  sizes : Table (Size α) := .empty
  layout : Layout α
  passes : Nat := 1
  revision : Nat := 0

namespace Session

variable {α : Type} [Length α]

/-!
# Opening
-/

def ofDraft (settings : LayoutSettings α) (front : FrontMatter) (draft : Draft) :
    Session α :=
  { draft, front, settings, layout := .ofGraph settings draft.graph .empty }

def new (settings : LayoutSettings α) (title : String) (s : Supply := {}) : Session α :=
  ofDraft settings { title } (.emptyState s)

def ofDefinition? (settings : LayoutSettings α) (d : Definition) (s : Supply := {}) :
    Except ImportError (Session α) :=
  (d.toDraft? s).map (ofDraft settings d.frontMatter)

/-!
# Editing
-/

def graph (s : Session α) : Graph :=
  s.draft.graph

def relayout (s : Session α) : Session α :=
  { s with
    layout := .ofGraph s.settings s.graph s.sizes
    passes := s.passes + 1 }

/-- Applies a command; answers the ids of the blocks it created.  Sizes of nodes that
are gone are forgotten. -/
def apply (s : Session α) (c : Command) : List String × Session α :=
  let result := s.draft.apply Label.defaultStem c
  let edited := { s with draft := result.draft }
  if result.isStale s.graph then
    let kept := { edited with sizes := s.sizes.filter edited.graph.contains }
    (result.created, { kept with revision := s.revision + 1 }.relayout)
  else (result.created, edited)

def updateSize [BEq α] (s : Session α) (id : String) (size : Size α) : Session α :=
  if !s.graph.contains id || (s.sizes.get? id).any fun known => known == size then s
  else { s with sizes := s.sizes.insert id size }.relayout

/-!
# Writing down
-/

def snapshot (s : Session α) : Except Invalid Definition :=
  s.graph.toDefinition? s.front

inductive SaveFailure where
  | invalid (e : Invalid)
  | closed
  deriving DecidableEq, Repr

namespace SaveFailure

def message : SaveFailure -> String
  | invalid e => e.message
  | closed => "save worker is not running"

end SaveFailure

/-- The snapshot to be saved, if someone takes it. -/
def save (s : Session α) (taken : Bool) : Except SaveFailure Definition :=
  match s.snapshot with
  | .error e => .error (.invalid e)
  | .ok d => if taken then .ok d else .error .closed

/-- Goes over to a session on the snapshot of this one, with ids that are new. -/
def reopen (s : Session α) : Except Invalid (Except ImportError (Session α)) :=
  s.snapshot.map fun d => ofDefinition? s.settings d s.draft.supply

end Session
end Workflow
