import Workflow.Graph.Basic

/-!
# Chains

The graph falls into scopes: the top level, the body of each loop, and each branch
of a conditional.  The nodes of a scope follow one another in its chain, which
begins at the start marker and goes along the edges of the scope until it runs out
of successors or comes back to a node it has passed.
-/

namespace Workflow

/-- The part of a graph that one chain runs through.  Without a parent it is the top
level; with a branch it is a branch of a conditional. -/
structure Scope where
  parent : Option String := none
  branch : Option String := none
  deriving DecidableEq, Repr

namespace Scope

def root : Scope := {}

def body (parent : String) : Scope :=
  { parent := some parent }

def ofBranch (conditional branch : String) : Scope :=
  { parent := some conditional, branch := some branch }

/-- A branch has the edges with its tag, every other scope those without one. -/
def admits (s : Scope) (e : Edge) : Bool :=
  match s.parent, s.branch with
  | some p, some b => e.inBranch p b
  | _, _ => e.tag.isNone

end Scope

namespace Graph

def next? (g : Graph) (s : Scope) (id : String) : Option String :=
  (g.edges.find? fun e => e.source == id && s.admits e).map Edge.target

/-- Whether a node is entered by an edge from another node of its scope. -/
def isEntered (g : Graph) (s : Scope) (id : String) : Bool :=
  g.edges.any fun e =>
    e.target == id && s.admits e &&
      (g.node? e.source).any fun n => n.parent == s.parent

/-- The start marker of the scope or, without one, its first node that is not entered. -/
def head? (g : Graph) (s : Scope) : Option String :=
  match g.startMarker? s.parent with
  | some n => some n.id
  | none =>
      (g.nodes.find? fun n => n.parent == s.parent && !g.isEntered s n.id).map Node.id

/-- Goes from node to node until there is no next one or it has been passed. -/
def follow (g : Graph) (s : Scope) : Nat -> List String -> Option String -> List String
  | 0, _, _ => []
  | _, _, none => []
  | fuel + 1, seen, some id =>
      if seen.contains id then []
      else id :: follow g s fuel (id :: seen) (g.next? s id)

/-- The ids of a chain in order.  Every id after the first is the target of an edge,
so the chain has at most one id more than there are edges. -/
def chain (g : Graph) (s : Scope) : List String :=
  g.follow s (g.edges.length + 1) [] (g.head? s)

/-- The scope whose chain holds a node: for a node inside a conditional the first
branch whose chain it is on. -/
def scopeOf? (g : Graph) (id : String) : Option Scope :=
  match g.node? id with
  | none => none
  | some n =>
      match n.parent with
      | none => some .root
      | some parent =>
          match g.node? parent with
          | none => none
          | some container =>
              match container.conditional? with
              | none => some (.body parent)
              | some c =>
                  (c.branchIds.map (Scope.ofBranch parent)).find? fun s =>
                    (g.chain s).contains id

/-- The scopes inside a container, the branches in the order they are declared in. -/
def bodyScopes (id : String) : Block -> List Scope
  | .leaf _ => []
  | .loop _ => [.body id]
  | .conditional c => c.branchIds.map (Scope.ofBranch id)

def bodyIds (g : Graph) (id : String) : List String :=
  match g.block? id with
  | none => []
  | some b => (bodyScopes id b).flatMap g.chain

end Graph
end Workflow
