import Workflow.Block.Required
import Workflow.Definition.Parameter
import Workflow.Graph.Order
import Workflow.Repeats
import Workflow.Validation.Cycle
import Workflow.Validation.Problem

/-!
# Validating graphs

A graph without problems is a complete workflow.  Problems are listed in a fixed
order: those of the parameters, those of each node in the order of the graph, those
of each edge, and a cycle last.
-/

namespace Workflow

/-!
# Blocks
-/

namespace Block

def fieldProblems (b : Block) (name : String) : List Problem :=
  b.missing.map (.emptyField name)

/-- A reference must name a block of the graph or a parameter. -/
def referenceProblems (b : Block) (name : String) (labels keys : List String) :
    List Problem :=
  b.references.filterMap fun (field, r) =>
    match r with
    | .output l => if labels.contains l then none else some (.unknownBlock name field l)
    | .label l => if labels.contains l then none else some (.unknownMergeBlock name field l)
    | .parameter k => if keys.contains k then none else some (.unknownParameter name field k)

def branchProblems (b : Block) (name : String) : List Problem :=
  match b.conditional? with
  | none => []
  | some c =>
      (if c.branches.isEmpty then [.noBranches name] else []) ++
      (repeats c.branchIds).map (.duplicateBranch name) ++
      (if c.hasBranch c.active then [] else [.undeclaredActive name c.active])

end Block

/-!
# Nodes
-/

namespace Graph

def parentProblems (g : Graph) (n : Node) : List Problem :=
  match n.parent with
  | none => []
  | some p => if (g.node? p).any Node.isContainer then [] else [.parentNotContainer n.id p]

/-- Whether the chain of a node's scope passes through the node. -/
def isConnected (g : Graph) (id : String) : Bool :=
  (g.scopeOf? id).any fun s => (g.chain s).contains id

/-- The problems of a block; `seen` are the labels of the blocks before it. -/
def blockProblems (g : Graph) (keys seen : List String) (id : String) (h : Heading)
    (b : Block) : List Problem :=
  let blank := Text.isBlank h.label
  let name := if blank then id else h.label
  (if blank then [.blankLabel id]
    else if seen.contains h.label then [.duplicateLabel h.label] else []) ++
  b.fieldProblems name ++
  b.referenceProblems name g.labels keys ++
  b.branchProblems name ++
  (if g.isConnected id then [] else [.disconnected name])

def nodeProblems (g : Graph) (keys seen : List String) (n : Node) : List Problem :=
  g.parentProblems n ++
  match n.content with
  | .block h b => g.blockProblems keys seen n.id h b
  | _ => []

/-- The problems of nodes in order. -/
def nodesProblems (g : Graph) (keys : List String) : List String -> List Node -> List Problem
  | _, [] => []
  | seen, n :: rest =>
      g.nodeProblems keys seen n ++ nodesProblems g keys (n.label?.toList ++ seen) rest

/-!
# Edges
-/

def edgeProblems (g : Graph) (e : Edge) : List Problem :=
  if !g.contains e.source || !g.contains e.target then [.unknownEnd e.id]
  else
    match e.tag with
    | none => []
    | some t =>
        let declared := (g.conditional? t.conditional).filter fun c => c.hasBranch t.branch
        match declared with
        | none => [.undeclaredTag e.id t.branch t.conditional]
        | some c => if e.hidden == (c.active == t.branch) then [.wrongVisibility e.id] else []

/-!
# Whole graphs
-/

def problems (g : Graph) (parameters : List Parameter) : List Problem :=
  let keys := parameters.map Parameter.key
  (repeats keys).map .duplicateParameter ++
  g.nodesProblems keys [] (g.order.filterMap g.node?) ++
  g.edges.flatMap g.edgeProblems ++
  (if g.hasCycle then [.cycle] else [])

end Graph
end Workflow
