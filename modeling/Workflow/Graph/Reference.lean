import Workflow.Block.Reference
import Workflow.Graph.Order

/-!
# References of a graph

Blocks refer to one another by label.  This module collects the references of a
whole graph, clears those to labels that are gone, and moves them to another label.
Only the blocks that are found to refer to such a label are changed; of several nodes
with one id, that is the last.
-/

namespace Workflow

/-!
# Places
-/

structure Place where
  node : String
  field : Field
  deriving DecidableEq, Repr

namespace Place

def before (a b : Place) : Bool :=
  a.node < b.node || (a.node == b.node && a.field.before b.field)

/-- Adds a place to a list in order, once. -/
def insert (p : Place) : List Place -> List Place
  | [] => [p]
  | q :: rest =>
      if p.before q then p :: q :: rest
      else if p == q then q :: rest
      else q :: insert p rest

/-- The ids of the nodes in a list of places, each once and in order. -/
def ids (places : List Place) : List String :=
  (Table.ofList ((places.map Place.node).map fun id => (id, ()))).keys

end Place

namespace Node

def references (n : Node) : List (Place × Reference) :=
  match n.block? with
  | none => []
  | some b => b.references.map fun r => (⟨n.id, r.1⟩, r.2)

end Node

namespace Graph

/-!
# Listing
-/

/-- For each label that is depended on, the places that depend on it. -/
def referenceTable (g : Graph) : Table (List Place) :=
  (g.nodes.flatMap Node.references).foldl
    (fun table (place, r) =>
      match r.label? with
      | none => table
      | some label => table.insert label (place.insert ((table.get? label).getD [])))
    .empty

/-- The nodes that depend on a label. -/
def referrers (g : Graph) (label : String) : List String :=
  Place.ids ((g.referenceTable.get? label).getD [])

/-- The places that depend on a label no block carries, with that label. -/
def dangling (g : Graph) : List (String × Place) :=
  let labels := g.labels
  g.order.flatMap fun id =>
    match g.block? id with
    | none => []
    | some b =>
        b.references.filterMap fun (field, r) =>
          match r.label? with
          | none => none
          | some label => if labels.contains label then none else some (label, ⟨id, field⟩)

/-!
# Changing
-/

/-- Changes the blocks with the given ids one after another. -/
def modifyBlocks (g : Graph) (ids : List String) (f : Block -> Block) : Graph :=
  ids.foldl (fun g id => g.modifyNode id (Node.mapBlock f)) g

def prune (g : Graph) (label : String) : Graph :=
  g.modifyBlocks (g.referrers label) fun b => (b.retainLabels fun l => l != label).1

def pruneAll (g : Graph) (labels : List String) : Graph :=
  labels.foldl prune g

/-- Clears the references to labels that no block carries. -/
def pruneDangling (g : Graph) : Graph :=
  let labels := g.labels
  g.modifyBlocks (Place.ids (g.dangling.map Prod.snd)) fun b => (b.retainLabels labels.contains).1

/-- Points the references to the label `old` at `new` instead. -/
def repoint (g : Graph) (old new : String) : Graph :=
  g.modifyBlocks (g.referrers old) fun b => (b.renameLabel old new).1

end Graph
end Workflow
