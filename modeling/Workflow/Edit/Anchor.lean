import Workflow.Graph.Chain
import Workflow.Graph.Json

/-!
# Anchors

An anchor says where a new block goes: between two neighbours of a chain, or at an
open end of it, in the scope that its parent and its branch name.
-/

namespace Workflow

open Json

structure Anchor where
  previous : Option String := none
  next : Option String := none
  parent : Option String := none
  branch : Option String := none
  deriving DecidableEq, Repr

namespace Anchor

/-- A branch without a parent names no scope of its own. -/
def scope (a : Anchor) : Scope :=
  match a.parent with
  | some p => { parent := some p, branch := a.branch }
  | none => .root

def tag (a : Anchor) : Option BranchTag :=
  match a.parent, a.branch with
  | some p, some b => some ⟨p, b⟩
  | _, _ => none

/-!
# Validity
-/

def scopeExists (a : Anchor) (g : Graph) : Bool :=
  match a.parent, a.branch with
  | none, none => true
  | none, some _ => false
  | some p, none =>
      match g.block? p with
      | some (.loop _) => true
      | _ => false
  | some p, some b => (g.conditional? p).any fun c => c.hasBranch b

/-- Whether an end of the anchor, if it is given, stands in the anchor's scope. -/
def standsInScope (a : Anchor) (g : Graph) (id? : Option String) : Bool :=
  id?.all fun id => (g.node? id).any fun n => n.parent == a.parent

/-- Whether the ends of the anchor meet.  Two ends are joined by an edge of the scope;
a single one has no neighbour on its other side. -/
def endsMeet (a : Anchor) (g : Graph) : Bool :=
  let chain := g.chain a.scope
  match a.previous, a.next with
  | some p, some n =>
      chain.contains p && chain.contains n &&
        (g.edgesFrom p).any fun e => e.target == n && e.tag == a.tag
  | some p, none =>
      chain.contains p && !(g.node? p).any Node.isInsertionMarker &&
        !(g.edgesFrom p).any a.scope.admits
  | none, some n =>
      chain.contains n && !(g.node? n).any Node.isStart &&
        !(g.edgesTo n).any a.scope.admits
  | none, none => false

def isValid (a : Anchor) (g : Graph) : Bool :=
  a.scopeExists g && a.standsInScope g a.previous && a.standsInScope g a.next &&
    a.endsMeet g

/-!
# In JSON
-/

def fields : List String :=
  ["previous_id", "next_id", "parent_id", "branch_id"]

def ofMembers? (ms : Members) : Option Anchor := do
  let previous <- optional ms "previous_id" text?
  let next <- optional ms "next_id" text?
  let parent <- optional ms "parent_id" text?
  let branch <- optional ms "branch_id" text?
  return { previous, next, parent, branch }

def ofJson? (v : Json) : Option Anchor :=
  (record? fields v).bind ofMembers?

end Anchor

/-- The position of imported blocks.  An edge kind, if given, is that of the edges that
lead into them. -/
structure InsertionPoint where
  anchor : Anchor := {}
  edgeKind : Option EdgeKind := none
  deriving DecidableEq, Repr

namespace InsertionPoint

def ofJson? (v : Json) : Option InsertionPoint := do
  let ms <- members? v
  let anchor <- Anchor.ofMembers? ms
  let edgeKind <- optional ms "edge_kind" namedInside?
  return { anchor, edgeKind }

end InsertionPoint
end Workflow
