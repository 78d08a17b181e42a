import Workflow.Draft
import Workflow.Graph.Reference
import Workflow.Label

/-!
# Removing and retyping blocks

A block goes together with everything nested in it, and the references to the labels
that go with it are cleared.
-/

namespace Workflow
namespace Graph

def labelsOf (g : Graph) (ids : List String) : List String :=
  (g.nodes.filter fun n => ids.contains n.id).filterMap Node.label?

/-- The first edge from a node to one that is not among those removed. -/
def successor? (g : Graph) (removed : List String) (id : String) : Option Edge :=
  (g.edgesFrom id).find? fun e => !removed.contains e.target

/-- Lets the edges into a node, from outside those removed, lead to its successor
instead, with the kind of the edge to the successor. -/
def bypass (g : Graph) (removed : List String) (id : String) : Graph :=
  match g.successor? removed id with
  | none => g
  | some next =>
      let edges := g.edges.map fun e =>
        if e.target == id && !removed.contains e.source then
          { e with target := next.target, kind := next.kind }
        else e
      { g with edges }

def removeSubtree (g : Graph) (id : String) : Graph :=
  let removed := id :: g.descendants id
  let labels := g.labelsOf removed
  ((g.bypass removed id).removeNodes removed).pruneAll labels

end Graph

namespace Draft

/-- Removes a block.  Markers stay, and when no block is left the workflow is the
empty one again. -/
def removeBlock (d : Draft) (id : String) : Draft :=
  match d.graph.block? id with
  | none => d
  | some _ =>
      let d := d.modify fun g => g.removeSubtree id
      if d.graph.hasBlocks then d else emptyState d.supply

/-- Makes a block a fresh one of another kind, which keeps its id and its place. -/
def retypeBlock (d : Draft) (stem id : String) (kind : Kind) : Draft :=
  match (d.graph.node? id).bind Node.heading? with
  | none => d
  | some old =>
      let nested := d.graph.descendants id
      let stale := old.label :: d.graph.labelsOf nested
      let label := Label.generate stem d.graph.labels
      let d := d.modify fun g => g.removeNodes nested
      let d := if kind.isContainer then d.addBody id (.fresh kind) else d
      d.modify fun g =>
        (g.modifyNode id fun n => { n with content := .block { label } (.fresh kind) }).pruneAll
          stale

end Draft
end Workflow
