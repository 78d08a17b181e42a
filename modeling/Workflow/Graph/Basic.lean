import Workflow.Block.Basic

/-!
# Block graphs

A graph is the edited form of a workflow: start markers, insertion markers and
blocks, joined by edges in the order they run in.  A node names the container whose
body it stands in.  Inside a conditional every edge carries the tag of its branch.
Nodes and edges keep the order they were added in.
-/

namespace Workflow

/-!
# Nodes
-/

inductive Content where
  | start
  | insertionMarker
  | block (heading : Heading) (b : Block)
  deriving BEq, Repr

structure Node where
  id : String
  parent : Option String
  content : Content
  deriving BEq, Repr

namespace Node

def block? (n : Node) : Option Block :=
  match n.content with
  | .block _ b => some b
  | _ => none

def heading? (n : Node) : Option Heading :=
  match n.content with
  | .block h _ => some h
  | _ => none

def label? (n : Node) : Option String :=
  n.heading?.map Heading.label

def isBlock (n : Node) : Bool :=
  n.block?.isSome

def isStart (n : Node) : Bool :=
  match n.content with
  | .start => true
  | _ => false

def isInsertionMarker (n : Node) : Bool :=
  match n.content with
  | .insertionMarker => true
  | _ => false

def isContainer (n : Node) : Bool :=
  n.block?.any Block.isContainer

def conditional? (n : Node) : Option Conditional :=
  n.block?.bind Block.conditional?

/-- Changes the attributes of a block; markers stay as they are. -/
def mapBlock (f : Block -> Block) (n : Node) : Node :=
  match n.content with
  | .block h b => { n with content := .block h (f b) }
  | _ => n

def mapHeading (f : Heading -> Heading) (n : Node) : Node :=
  match n.content with
  | .block h b => { n with content := .block (f h) b }
  | _ => n

end Node

/-!
# Edges
-/

inductive EdgeKind where
  | plain
  | insertable
  | branch
  deriving DecidableEq, Repr

structure BranchTag where
  conditional : String
  branch : String
  deriving DecidableEq, Repr

structure Edge where
  id : String
  source : String
  target : String
  kind : EdgeKind
  tag : Option BranchTag := none
  hidden : Bool := false
  deriving DecidableEq, Repr

namespace Edge

def touches (e : Edge) (id : String) : Bool :=
  e.source == id || e.target == id

def inBranch (e : Edge) (conditional branch : String) : Bool :=
  e.tag == some ⟨conditional, branch⟩

end Edge

/-!
# Graphs
-/

structure Graph where
  nodes : List Node
  edges : List Edge
  deriving BEq, Repr

/-- Changes the last element that satisfies `p`. -/
def modifyLast (p : α -> Bool) (f : α -> α) : List α -> List α
  | [] => []
  | a :: rest =>
      if rest.any p then a :: modifyLast p f rest
      else if p a then f a :: rest
      else a :: rest

namespace Graph

def empty : Graph := ⟨[], []⟩

/-- The node with an id; of several with one id, the last. -/
def node? (g : Graph) (id : String) : Option Node :=
  g.nodes.reverse.find? fun n => n.id == id

def contains (g : Graph) (id : String) : Bool :=
  g.nodes.any fun n => n.id == id

def block? (g : Graph) (id : String) : Option Block :=
  (g.node? id).bind Node.block?

def conditional? (g : Graph) (id : String) : Option Conditional :=
  (g.node? id).bind Node.conditional?

def modifyNode (g : Graph) (id : String) (f : Node -> Node) : Graph :=
  { g with nodes := modifyLast (fun n => n.id == id) f g.nodes }

def edgesFrom (g : Graph) (id : String) : List Edge :=
  g.edges.filter fun e => e.source == id

def edgesTo (g : Graph) (id : String) : List Edge :=
  g.edges.filter fun e => e.target == id

def labels (g : Graph) : List String :=
  g.nodes.filterMap Node.label?

def findByLabel? (g : Graph) (label : String) : Option Node :=
  g.nodes.find? fun n => n.label? == some label

def hasBlocks (g : Graph) : Bool :=
  g.nodes.any Node.isBlock

def isEmptyState (g : Graph) : Bool :=
  !g.hasBlocks

/-- The start marker of the top level, or of the body of a container. -/
def startMarker? (g : Graph) (parent : Option String) : Option Node :=
  g.nodes.find? fun n => n.parent == parent && n.isStart

def insertionMarker? (g : Graph) (parent : Option String) : Option Node :=
  g.nodes.find? fun n => n.parent == parent && n.isInsertionMarker

/-!
# Nesting
-/

def childIds (g : Graph) (parent : String) : List String :=
  (g.nodes.filter fun n => n.parent == some parent).map Node.id

def children (g : Graph) (parent : String) : List Node :=
  (g.childIds parent).filterMap g.node?

/-- The ids below those given, a generation at a time. -/
def generations (g : Graph) : Nat -> List String -> List String
  | 0, _ => []
  | n + 1, ids =>
      let next := ids.flatMap g.childIds
      next ++ generations g n next

/-- Every id nested in a node at any depth.  No chain of containers is longer than
the number of nodes. -/
def descendants (g : Graph) (id : String) : List String :=
  g.generations g.nodes.length [id]

/-!
# Removal
-/

def removeNodes (g : Graph) (ids : List String) : Graph where
  nodes := g.nodes.filter fun n => !ids.contains n.id
  edges := g.edges.filter fun e => !ids.contains e.source && !ids.contains e.target

end Graph
end Workflow
