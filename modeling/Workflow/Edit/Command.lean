import Workflow.Edit.Attribute
import Workflow.Edit.Branching
import Workflow.Edit.Insertion

/-!
# Edit commands

A command is one edit of a workflow.  Every command can be applied to every draft:
one that names no node, or no valid position, changes nothing.
-/

namespace Workflow

open Json

inductive Command where
  | addNode (kind : Kind) (anchor : Anchor)
  | deleteNode (id : String)
  | retypeNode (id : String) (kind : Kind)
  | importRecorded (blocks : List RecordedBlock) (point : InsertionPoint)
  | setActiveBranch (conditional branch : String)
  | addBranch (conditional : String) (branch : Branch)
  | removeBranch (conditional branch : String)
  | updateBlock (id : String) (b : Block)
  | relabel (id label : String)
  | setContinueOnFailure (id : String) (value : Bool)
  | setModel (id : String) (model : Option String)
  deriving BEq, Repr

namespace Command

def name : Command -> String
  | addNode _ _ => "add_node"
  | deleteNode _ => "delete_node"
  | retypeNode _ _ => "retype_node"
  | importRecorded _ _ => "import_recorded_blocks"
  | setActiveBranch _ _ => "set_active_branch"
  | addBranch _ _ => "add_branch"
  | removeBranch _ _ => "remove_branch"
  | updateBlock _ _ => "update_block"
  | relabel _ _ => "relabel"
  | setContinueOnFailure _ _ => "set_continue_on_failure"
  | setModel _ _ => "set_model"

/-!
# In JSON
-/

/-- The fields of a command after its name. -/
def fields? (name : String) : Option (List String) :=
  if name = "add_node" then some ["kind", "anchor"]
  else if name = "delete_node" then some ["id"]
  else if name = "retype_node" then some ["id", "kind"]
  else if name = "import_recorded_blocks" then some ["blocks", "at"]
  else if name = "set_active_branch" then some ["conditional_id", "branch_id"]
  else if name = "add_branch" then some ["conditional_id", "branch"]
  else if name = "remove_branch" then some ["conditional_id", "branch_id"]
  else if name = "update_block" then some ["id", "block"]
  else if name = "relabel" then some ["id", "label"]
  else if name = "set_continue_on_failure" then some ["id", "value"]
  else if name = "set_model" then some ["id", "model"]
  else none

def ofMembers? (name : String) (ms : Members) : Option Command :=
  if name = "add_node" then do
    let kind <- required ms "kind" namedInside?
    let anchor <- defaulted ms "anchor" {} Anchor.ofJson?
    return addNode kind anchor
  else if name = "delete_node" then do
    let id <- required ms "id" text?
    return deleteNode id
  else if name = "retype_node" then do
    let id <- required ms "id" text?
    let kind <- required ms "kind" namedInside?
    return retypeNode id kind
  else if name = "import_recorded_blocks" then do
    let blocks <- required ms "blocks" (list? RecordedBlock.ofJson?)
    let point <- defaulted ms "at" {} InsertionPoint.ofJson?
    return importRecorded blocks point
  else if name = "set_active_branch" then do
    let conditional <- required ms "conditional_id" text?
    let branch <- required ms "branch_id" text?
    return setActiveBranch conditional branch
  else if name = "add_branch" then do
    let conditional <- required ms "conditional_id" text?
    let branch <- required ms "branch" Branch.ofJson?
    return addBranch conditional branch
  else if name = "remove_branch" then do
    let conditional <- required ms "conditional_id" text?
    let branch <- required ms "branch_id" text?
    return removeBranch conditional branch
  else if name = "update_block" then do
    let id <- required ms "id" text?
    let b <- required ms "block" Block.ofNested?
    return updateBlock id b
  else if name = "relabel" then do
    let id <- required ms "id" text?
    let label <- required ms "label" text?
    return relabel id label
  else if name = "set_continue_on_failure" then do
    let id <- required ms "id" text?
    let value <- required ms "value" flag?
    return setContinueOnFailure id value
  else if name = "set_model" then do
    let id <- required ms "id" text?
    let model <- optional ms "model" text?
    return setModel id model
  else none

def ofJson? (v : Json) : Option Command := do
  let (name, content) <- tagged? "command" text? v
  let fields <- fields? name
  let ms <- record? fields content
  ofMembers? name ms

end Command

/-!
# Applying commands
-/

/-- The draft after an edit, with the ids of the blocks it created in chain order. -/
structure EditResult where
  draft : Draft
  created : List String := []

/-- Applies a command; fresh labels begin with the stem. -/
def Draft.apply (d : Draft) (stem : String) : Command -> EditResult
  | .addNode kind anchor =>
      let (ids, d) := d.insertBlock stem kind anchor
      ⟨d, ids⟩
  | .deleteNode id => ⟨d.removeBlock id, []⟩
  | .retypeNode id kind => ⟨d.retypeBlock stem id kind, []⟩
  | .importRecorded blocks point =>
      let (ids, d) := d.insertRecorded stem blocks point
      ⟨d, ids⟩
  | .setActiveBranch conditional branch =>
      ⟨d.modify fun g => g.showBranch conditional branch, []⟩
  | .addBranch conditional branch => ⟨d.addBranch conditional branch, []⟩
  | .removeBranch conditional branch => ⟨d.removeBranch conditional branch, []⟩
  | .updateBlock id b => ⟨d.modify fun g => g.updateBlock id b, []⟩
  | .relabel id label => ⟨d.modify fun g => g.relabel id label, []⟩
  | .setContinueOnFailure id value => ⟨d.modify fun g => g.setContinueOnFailure id value, []⟩
  | .setModel id model => ⟨d.modify fun g => g.setModel id model, []⟩

/-- Whether an edit changed the graph, so that its layout is out of date. -/
def EditResult.isStale (r : EditResult) (before : Graph) : Bool :=
  r.draft.graph != before

end Workflow
