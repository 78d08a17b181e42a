import Workflow.Block.Json
import Workflow.Graph.Basic

/-!
# Graphs in JSON

A graph is written as its nodes and its edges, each in their own order.  Inside a
node the member `kind` tells markers and blocks apart.
-/

namespace Workflow

open Json

/-!
# Nodes
-/

namespace Content

def typeName : Content -> String
  | start => "start"
  | insertionMarker => "insertion_marker"
  | block _ _ => "block"

def blockFields : List String :=
  ["label", "continue_on_failure", "model", "block"]

def blockOf? (content : Json) : Option Content := do
  let ms <- record? blockFields content
  let label <- required ms "label" text?
  let continueOnFailure <- required ms "continue_on_failure" flag?
  let model <- optional ms "model" text?
  let b <- required ms "block" Block.ofNested?
  return block { label, continueOnFailure, model } b

/-- The content of a node type; a marker has no fields. -/
def ofContent? (name : String) (content : Json) : Option Content :=
  if name = "start" then (record? [] content).map fun _ => start
  else if name = "insertion_marker" then
    (record? [] content).map fun _ => insertionMarker
  else if name = "block" then blockOf? content
  else none

def ofJson? (v : Json) : Option Content := do
  let (name, content) <- tagged? "node_type" text? v
  ofContent? name content

/-- A model is written even when there is none. -/
def members : Content -> Members
  | start => []
  | insertionMarker => []
  | block h b =>
      [("label", str h.label),
       ("continue_on_failure", bool h.continueOnFailure),
       ("model", (h.model.map str).getD null),
       ("block", b.toJson)]

def toJson (c : Content) : Json :=
  obj (("node_type", str c.typeName) :: c.members)

end Content

namespace Node

def fields : List String :=
  ["id", "parent_id", "kind"]

def ofJson? (v : Json) : Option Node := do
  let ms <- record? fields v
  let id <- required ms "id" text?
  let parent <- optional ms "parent_id" text?
  let content <- required ms "kind" Content.ofJson?
  return { id, parent, content }

def toJson (n : Node) : Json :=
  obj
    ([("id", str n.id)] ++ present "parent_id" str n.parent ++
     [("kind", n.content.toJson)])

end Node

/-!
# Edges
-/

instance : Json.Named EdgeKind :=
  ⟨[.plain, .insertable, .branch], fun
    | .plain => "plain"
    | .insertable => "insertable"
    | .branch => "branch"⟩

namespace BranchTag

def fields : List String :=
  ["conditional_id", "branch_id"]

def ofJson? (v : Json) : Option BranchTag := do
  let ms <- record? fields v
  let conditional <- required ms "conditional_id" text?
  let branch <- required ms "branch_id" text?
  return { conditional, branch }

def toJson (t : BranchTag) : Json :=
  obj [("conditional_id", str t.conditional), ("branch_id", str t.branch)]

end BranchTag

namespace Edge

def fields : List String :=
  ["id", "source", "target", "kind", "branch", "hidden"]

def ofJson? (v : Json) : Option Edge := do
  let ms <- record? fields v
  let id <- required ms "id" text?
  let source <- required ms "source" text?
  let target <- required ms "target" text?
  let kind <- required ms "kind" named?
  let tag <- optional ms "branch" BranchTag.ofJson?
  let hidden <- required ms "hidden" flag?
  return { id, source, target, kind, tag, hidden }

def toJson (e : Edge) : Json :=
  obj
    ([("id", str e.id),
      ("source", str e.source),
      ("target", str e.target),
      ("kind", ofName e.kind)] ++
     present "branch" BranchTag.toJson e.tag ++
     [("hidden", bool e.hidden)])

end Edge

/-!
# Whole graphs
-/

namespace Graph

def ofJson? (v : Json) : Option Graph := do
  let ms <- members? v
  let nodes <- required ms "nodes" (list? Node.ofJson?)
  let edges <- required ms "edges" (list? Edge.ofJson?)
  return { nodes, edges }

def toJson (g : Graph) : Json :=
  obj
    [("nodes", arr (g.nodes.map Node.toJson)),
     ("edges", arr (g.edges.map Edge.toJson))]

end Graph
end Workflow
