import Workflow.Json.Value
import Workflow.Definition.Basic

/-!
# Upgrading documents

A document written at an older version is lifted one version at a time.  Each
migration goes over every block, a block before its contents, and renames what the
next version calls otherwise; a block of a later version is left as it is, and a
block of no known type fails the whole upgrade.
-/

namespace Workflow

/-!
# Errors
-/

inductive Malformed where
  | notAnObject
  | blocksNotAList
  | blockNotAnObject
  | versionOutOfRange (version : Nat)
  deriving DecidableEq, Repr

namespace Malformed

def message : Malformed -> String
  | notAnObject => "definition is not an object"
  | blocksNotAList => "blocks is not an array"
  | blockNotAnObject => "block is not an object"
  | versionOutOfRange version => s!"version {version} out of range"

end Malformed

inductive UpgradeError where
  | unmappable (label type : String)
  | unknownVersion (version : UInt32)
  | malformed (reason : Malformed)
  deriving DecidableEq, Repr

namespace UpgradeError

def message : UpgradeError -> String
  | unmappable label type =>
      s!"block '{label}' has type '{type}' which cannot be upgraded"
  | unknownVersion version => s!"unknown definition version {version.toNat}"
  | malformed reason => s!"malformed definition: {reason.message}"

end UpgradeError

namespace Upgrade

open Json

/-!
# Migrations
-/

inductive Change where
  | keep
  | task (kind : String)
  | login
  | loop
  deriving DecidableEq, Repr

/-- The types that are called the same since the first version. -/
def lastingTypes : List String :=
  ["task", "conditional", "code", "text_prompt", "http_request", "extraction",
   "file_download", "login", "send_email", "wait", "goto_url", "pdf_parser",
   "file_parser", "validation"]

/-- A migration says what to do with a block of each type it knows. -/
abbrev Migration := String -> Option Change

/-- From version 1 to 2, the former kinds of task become one. -/
def unifyTasks : Migration := fun type =>
  if type = "navigation" then some (.task "navigation")
  else if type = "action" then some (.task "action")
  else if type = "login_task" then some .login
  else if type = "for_loop" || type = "loop" || lastingTypes.contains type then
    some .keep
  else none

/-- From version 2 to 3, loops and two of their fields get new names. -/
def renameLoops : Migration := fun type =>
  if type = "for_loop" then some .loop
  else if type = "loop" || lastingTypes.contains type then some .keep
  else none

def textOf (key : String) (ms : List (String × Json)) : Option String :=
  match ms.lookup key with
  | some (str s) => some s
  | _ => none

/-- The type of a block; a missing one is empty and so belongs to no known type. -/
def typeOf (ms : List (String × Json)) : String :=
  (textOf "block_type" ms).getD ""

def labelOf (ms : List (String × Json)) : String :=
  (textOf "label" ms).getD "<unlabelled>"

def moveMember (source target : String) (ms : List (String × Json)) :
    List (String × Json) :=
  match ms.lookup source with
  | some v => setMember target v (eraseMember source ms)
  | none => ms

namespace Change

def apply (ms : List (String × Json)) : Change -> List (String × Json)
  | keep => ms
  | task kind =>
      setMember "task_kind" (str kind) (setMember "block_type" (str "task") ms)
  | login => setMember "block_type" (str "login") ms
  | loop =>
      moveMember "loop_over_parameter_key" "loop_over"
        (moveMember "loop_blocks" "children"
          (setMember "block_type" (str "loop") ms))

/-- Whether the children given with a block are still there after the change: the
body of a loop takes their place. -/
def dropsChildren (ms : List (String × Json)) : Change -> Bool
  | loop => (ms.lookup "loop_blocks").isSome
  | _ => false

end Change

/-!
# Going over all blocks

The body of a block is the list in `children`, the list in `loop_blocks`, and the
`children` of each of its branches, in this order.
-/

def setIfSome (key : String) (v : Option Json) (ms : List (String × Json)) :
    List (String × Json) :=
  match v with
  | some v => setMember key v ms
  | none => ms

variable (migrate : Migration)

mutual

def block : Json -> Except UpgradeError Json
  | obj ms =>
      match migrate (typeOf ms) with
      | none => .error (.unmappable (labelOf ms) (typeOf ms))
      | some change => do
          let children <-
            if change.dropsChildren ms then pure none else bodyAt "children" ms
          let loopBlocks <- bodyAt "loop_blocks" ms
          let branches <- branchesAt ms
          let walked := setIfSome "branches" branches
            (setIfSome "loop_blocks" loopBlocks (setIfSome "children" children ms))
          return obj (change.apply walked)
  | _ => .error (.malformed .blockNotAnObject)

def blocks : Json -> Except UpgradeError Json
  | arr items => (blockItems items).map arr
  | _ => .error (.malformed .blocksNotAList)

def blockItems : List Json -> Except UpgradeError (List Json)
  | [] => .ok []
  | v :: rest => do
      let w <- block v
      let ws <- blockItems rest
      return w :: ws

/-- The list in one member, migrated. -/
def bodyAt (key : String) :
    List (String × Json) -> Except UpgradeError (Option Json)
  | [] => .ok none
  | (k, v) :: rest => if k = key then (blocks v).map some else bodyAt key rest

/-- The branches with the children of each migrated. -/
def branchesAt : List (String × Json) -> Except UpgradeError (Option Json)
  | [] => .ok none
  | (k, v) :: rest => if k = "branches" then (branches v).map some else branchesAt rest

def branches : Json -> Except UpgradeError Json
  | arr items => (branchItems items).map arr
  | v => .ok v

def branchItems : List Json -> Except UpgradeError (List Json)
  | [] => .ok []
  | v :: rest => do
      let w <- branch v
      let ws <- branchItems rest
      return w :: ws

def branch : Json -> Except UpgradeError Json
  | obj ms => do
      let children <- bodyAt "children" ms
      return obj (setIfSome "children" children ms)
  | v => .ok v

end

def document (ms : List (String × Json)) :
    Except UpgradeError (List (String × Json)) := do
  let walked <- bodyAt migrate "blocks" ms
  return setIfSome "blocks" walked ms

def migrations (version : UInt32) : Option (List Migration) :=
  if version = 1 then some [unifyTasks, renameLoops]
  else if version = 2 then some [renameLoops]
  else none

end Upgrade

open Json in
/-- Lifts a document from the given version to the current one.  A document at the
current version is not looked at. -/
def upgrade (v : Json) (version : UInt32) : Except UpgradeError (Json × UInt32) :=
  if version = Definition.currentVersion then .ok (v, version)
  else
    match Upgrade.migrations version with
    | none => .error (.unknownVersion version)
    | some ms =>
        match v with
        | obj members => do
            let members <- ms.foldlM (fun members m => Upgrade.document m members) members
            let current := int Definition.currentVersion.toNat
            return (obj (setMember "version" current members), Definition.currentVersion)
        | _ => .error (.malformed .notAnObject)

end Workflow
