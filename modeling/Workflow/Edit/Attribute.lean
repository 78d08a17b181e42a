import Workflow.Graph.Reference
import Workflow.Text.Blank

/-!
# Changing attributes

These edits change what blocks hold and leave their places alone.
-/

namespace Workflow
namespace Block

/-- The new attributes of a block in place of the old ones, if they are of the same
kind.  A conditional keeps its branch ids and the branch that is shown. -/
def replacement? (old new : Block) : Option Block :=
  match old, new with
  | conditional c, conditional d =>
      if c.branchIds = d.branchIds then some (conditional { d with active := c.active })
      else none
  | _, _ => if old.kind = new.kind then some new else none

end Block

namespace Graph

/-- Replaces the attributes of a block and clears the references that do not hold. -/
def updateBlock (g : Graph) (id : String) (b : Block) : Graph :=
  match (g.block? id).bind fun old => old.replacement? b with
  | none => g
  | some b => (g.modifyNode id (Node.mapBlock fun _ => b)).pruneDangling

/-- Renames a block along with the references to it.  A label that is blank or taken
is refused. -/
def relabel (g : Graph) (id label : String) : Graph :=
  let label := Text.trim label
  match (g.node? id).bind Node.label? with
  | none => g
  | some old =>
      if label.isEmpty || old == label || (g.findByLabel? label).isSome then g
      else
        (g.modifyNode id (Node.mapHeading fun h => { h with label })).repoint old label

def setContinueOnFailure (g : Graph) (id : String) (value : Bool) : Graph :=
  g.modifyNode id (Node.mapHeading fun h => { h with continueOnFailure := value })

def setModel (g : Graph) (id : String) (model : Option String) : Graph :=
  g.modifyNode id (Node.mapHeading fun h => { h with model })

end Graph
end Workflow
