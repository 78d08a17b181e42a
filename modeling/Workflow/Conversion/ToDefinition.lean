import Workflow.Conversion.Parameters
import Workflow.Definition.Basic
import Workflow.Validation.Check

/-!
# From graphs to definitions

A graph without problems is written down along its chains, the body of each container
inside it.  Any problem refuses the whole graph.
-/

namespace Workflow

structure Invalid where
  problems : List Problem
  deriving DecidableEq, Repr

namespace Invalid

def messages (e : Invalid) : List String :=
  e.problems.map Problem.message

def message (e : Invalid) : String :=
  "workflow is invalid: " ++ "; ".intercalate e.messages

end Invalid

namespace Graph

/-- A block with its bodies, given the blocks of each scope inside it. -/
def describe? (inside : Scope -> List Descriptor) (n : Node) : Option Descriptor :=
  match n.content with
  | .start => none
  | .insertionMarker => none
  | .block h (.leaf l) => some (.leaf h l)
  | .block h (.loop a) => some (.loop h a (inside (.body n.id)))
  | .block h (.conditional c) =>
      some (.conditional h (c.branches.map fun b => (b, inside (.ofBranch n.id b.id))))

def descriptorsTo (g : Graph) : Nat -> Scope -> List Descriptor
  | 0, _ => []
  | levels + 1, s =>
      ((g.chain s).filterMap g.node?).filterMap (describe? (descriptorsTo g levels))

/-- The blocks of a scope.  As many levels as nodes are enough where no scope that is come to
lies inside itself.  Elsewhere the blocks cannot be written down in full, and what is left out
here are those below the last level. -/
def descriptors (g : Graph) (s : Scope) : List Descriptor :=
  g.descriptorsTo g.nodes.length s

def toDefinition? (g : Graph) (front : FrontMatter) : Except Invalid Definition :=
  let parameters := g.reconcile front.parameters
  match g.problems parameters with
  | [] =>
      .ok
        { version := Definition.currentVersion
          title := front.title
          parameters
          blocks := g.descriptors .root }
  | problems => .error ⟨problems⟩

end Graph
end Workflow
