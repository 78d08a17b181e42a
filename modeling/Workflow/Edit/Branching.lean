import Workflow.Edit.Removal

/-!
# Branches of a conditional

One branch of a conditional is shown and the edges of the others are hidden.
-/

namespace Workflow
namespace Graph

def modifyConditional (g : Graph) (id : String) (f : Conditional -> Conditional) : Graph :=
  g.modifyNode id (Node.mapBlock fun
    | .conditional c => .conditional (f c)
    | b => b)

/-- Hides the edges of a conditional that belong to another branch than the one given. -/
def hideOthers (g : Graph) (conditional branch : String) : Graph :=
  let edges := g.edges.map fun e =>
    match e.tag with
    | none => e
    | some t =>
        if t.conditional == conditional then { e with hidden := t.branch != branch } else e
  { g with edges }

def showBranch (g : Graph) (conditional branch : String) : Graph :=
  if (g.conditional? conditional).any fun c => c.hasBranch branch then
    (g.modifyConditional conditional fun c => { c with active := branch }).hideOthers
      conditional branch
  else g

def removeBranchEdges (g : Graph) (conditional branch : String) : Graph :=
  { g with edges := g.edges.filter fun e => !e.inBranch conditional branch }

/-- Takes a branch off the list of a conditional.  If it was shown, the first of the
others is shown instead. -/
def undeclareBranch (g : Graph) (conditional branch : String) : Graph :=
  match g.conditional? conditional with
  | none => g
  | some c =>
      let rest := c.branches.filter fun b => b.id != branch
      let g := g.modifyConditional conditional fun c => { c with branches := rest }
      if c.active == branch then
        match rest with
        | [] => g
        | b :: _ => g.showBranch conditional b.id
      else g

end Graph

namespace Draft

/-- Appends a branch without blocks, unless its id is taken or the conditional has no
markers to join. -/
def addBranch (d : Draft) (conditional : String) (b : Branch) : Draft :=
  if (d.graph.conditional? conditional).any fun c => !c.hasBranch b.id then
    match d.graph.startMarker? (some conditional),
        d.graph.insertionMarker? (some conditional) with
    | some start, some marker =>
        let d := d.modify fun g =>
          g.modifyConditional conditional fun c => { c with branches := c.branches ++ [b] }
        d.addEdge start.id marker.id .branch (some ⟨conditional, b.id⟩) true
    | _, _ => d
  else d

/-- Removes a branch with the blocks on it.  The last branch stays. -/
def removeBranch (d : Draft) (conditional branch : String) : Draft :=
  if (d.graph.conditional? conditional).any fun c =>
      c.hasBranch branch && 1 < c.branches.length then
    let chain := d.graph.chain (.ofBranch conditional branch)
    let onBranch := chain.filter fun id => (d.graph.block? id).isSome
    let d := onBranch.foldl removeBlock d
    d.modify fun g =>
      (g.removeBranchEdges conditional branch).undeclareBranch conditional branch
  else d

end Draft
end Workflow
