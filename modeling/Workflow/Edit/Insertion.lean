import Workflow.Draft
import Workflow.Edit.Anchor
import Workflow.Graph.Reference
import Workflow.Label

/-!
# Inserting blocks

Blocks are spliced in between the two ends of an anchor: the edge between the ends is
taken away, the blocks are put behind the previous end one after another, and the last
of them is joined to the next end.  An anchor that names no real position leaves the
draft as it is.
-/

namespace Workflow

/-- A block recorded outside of the editor, which has no label yet. -/
structure RecordedBlock where
  block : Block
  continueOnFailure : Bool := false
  model : Option String := none
  deriving BEq, Repr

namespace RecordedBlock

open Json

def fields : List String :=
  ["block", "continue_on_failure", "model"]

def ofJson? (v : Json) : Option RecordedBlock := do
  let ms <- record? fields v
  let block <- required ms "block" Block.ofNested?
  let continueOnFailure <- defaulted ms "continue_on_failure" false flag?
  let model <- optional ms "model" text?
  return { block, continueOnFailure, model }

def heading (r : RecordedBlock) (label : String) : Heading :=
  { label, continueOnFailure := r.continueOnFailure, model := r.model }

end RecordedBlock

namespace Graph

/-- The kind of a new edge into a node. -/
def kindInto (g : Graph) (target : String) (tag : Option BranchTag) : EdgeKind :=
  if tag.isSome then .branch
  else if (g.node? target).any Node.isInsertionMarker then .plain
  else .insertable

/-- Whether a branch is declared by a conditional that shows another one. -/
def isHiddenBranch (g : Graph) (tag : BranchTag) : Bool :=
  (g.conditional? tag.conditional).any fun c => c.active != tag.branch

def disconnect (g : Graph) (source target : String) (tag : Option BranchTag) : Graph :=
  { g with
    edges := g.edges.filter fun e =>
      !(e.source == source && e.target == target && e.tag == tag) }

end Graph

namespace Draft

def addBlock (d : Draft) (parent : Option String) (h : Heading) (b : Block) :
    String × Draft :=
  let (id, d) := d.addNode parent (.block h b)
  (id, if b.isContainer then d.addBody id b else d)

/-- Takes the edges between the ends of an anchor away. -/
def openAt (d : Draft) (a : Anchor) : Draft :=
  match a.previous, a.next with
  | some p, some n => d.modify fun g => g.disconnect p n a.tag
  | _, _ => d

def closeAt (d : Draft) (a : Anchor) (hidden : Bool) : Draft :=
  match a.previous, a.next with
  | some p, some n => d.addEdge p n (d.graph.kindInto n a.tag) a.tag hidden
  | _, _ => d

/-- Puts a block behind the previous end of an anchor. -/
def putAfter (d : Draft) (a : Anchor) (edgeKind : Option EdgeKind) (hidden : Bool)
    (h : Heading) (b : Block) : String × Draft :=
  let (id, d) := d.addBlock a.parent h b
  match a.previous with
  | none => (id, d)
  | some p =>
      (id, d.addEdge p id (edgeKind.getD (d.graph.kindInto id a.tag)) a.tag hidden)

/-- Puts blocks behind one another, the last of them before the next end. -/
def putRow (edgeKind : Option EdgeKind) (hidden : Bool) (d : Draft) (a : Anchor) :
    List (Heading × Block) -> List String × Draft
  | [] => ([], d.closeAt a hidden)
  | (h, b) :: rest =>
      let (id, d) := d.putAfter a edgeKind hidden h b
      let (ids, d) := putRow edgeKind hidden d { a with previous := some id } rest
      (id :: ids, d)

/-- Puts blocks between the ends of an anchor; answers their ids. -/
def splice (d : Draft) (a : Anchor) (edgeKind : Option EdgeKind)
    (row : List (Heading × Block)) : List String × Draft :=
  putRow edgeKind (a.tag.any d.graph.isHiddenBranch) (d.openAt a) a row

def insertBlock (d : Draft) (stem : String) (kind : Kind) (a : Anchor) :
    List String × Draft :=
  if a.isValid d.graph then
    let label := Label.generate stem d.graph.labels
    d.splice a none [({ label }, .fresh kind)]
  else ([], d)

def insertRecorded (d : Draft) (stem : String) (blocks : List RecordedBlock)
    (point : InsertionPoint) : List String × Draft :=
  if blocks.isEmpty || !point.anchor.isValid d.graph then ([], d)
  else
    let (labels, _) := Label.Batch.allocateMany blocks.length ⟨stem, d.graph.labels⟩
    let row := labels.zipWith (fun label r => (r.heading label, r.block)) blocks
    let (ids, d) := d.splice point.anchor point.edgeKind row
    (ids, d.modify .pruneDangling)

end Draft
end Workflow
