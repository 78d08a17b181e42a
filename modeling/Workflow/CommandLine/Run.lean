import Workflow.CommandLine.Arguments
import Workflow.CommandLine.Tree
import Workflow.Layout.Measured
import Workflow.Session
import Workflow.Settings

/-!
# Commands

A command reads its files, answers on the output, and ends with an error at the first
thing that fails.
-/

namespace Workflow
namespace CommandLine

/-- The exit code of a run and what it writes. -/
structure Answer where
  exitCode : UInt32 := 0
  output : String := ""
  /-- A line for the user, on the error output. -/
  notice : String := ""
  deriving DecidableEq, Repr

namespace Answer

def failure (message : String) : Answer :=
  { exitCode := 1, notice := "Error: " ++ message }

end Answer

def usage : String :=
  "\n".intercalate
    ["Usage: blockflow [--config CONFIG] COMMAND",
     "",
     "Commands:",
     "  validate FILE                          print the problems of a definition",
     "  upgrade FILE [--from N] [--output OUT] lift a definition to the current version",
     "  normalize FILE [--store DIR --id ID]   write a definition in canonical form",
     "  layout FILE [--sizes SIZES]            print the layout of a definition",
     ""]

def version : String :=
  "blockflow 0.0.1-alpha.0\n"

/-!
# Reading files
-/

variable {m : Type -> Type} [Monad m]

/-- What a command does before it fails with a message. -/
abbrev Attempt (m : Type -> Type) := ExceptT String m

def orFail (message : String) : Except ε α -> Attempt m α
  | .ok a => return a
  | .error _ => throw message

/-- A value that is present, or the message in its place. -/
def presentOrFail (message : String) : Option α -> Attempt m α
  | some a => return a
  | none => throw message

/-- The settings in a file; a file that is not there leaves the defaults, if it `isOptional`. -/
def settingsIn (fs : FileAccess m) (isOptional : Bool) (path : String) : Attempt m Settings := do
  match <- fs.read path with
  | .ok text => presentOrFail s!"invalid config {path}" (Settings.parse? text)
  | .error e =>
      if isOptional && e == .notFound then return {}
      throw s!"failed to read config {path}: {e.message}"

/-- The file that was asked for, else the one in the home directory. -/
def readSettings (fs : FileAccess m) (home path : Option String) : Attempt m Settings :=
  match path, home with
  | some path, _ => settingsIn fs false path
  | none, some home => settingsIn fs true (home ++ "/.blockflow/config.toml")
  | none, none => return {}

def readText (fs : FileAccess m) (what file : String) : Attempt m String := do
  orFail s!"failed to read {what} file: {file}" (<- fs.read file)

def readDefinition (fs : FileAccess m) (file : String) : Attempt m Definition := do
  let text <- readText fs "definition" file
  orFail s!"failed to load definition file: {file}" (Definition.load? text)

def importDefinition (file : String) (d : Definition) : Attempt m Graph := do
  let draft <- orFail s!"failed to import definition file: {file}"
    (d.toDraft? { naming := .grouped })
  return draft.graph

/-!
# Commands
-/

def validate (fs : FileAccess m) (file : String) : Attempt m Answer := do
  let d <- readDefinition fs file
  let g <- importDefinition file d
  match g.problems d.parameters with
  | [] => return { notice := s!"{file}: ok" }
  | problems =>
      return { Answer.failure s!"{problems.length} problem(s) found in {file}" with
        output := String.join (problems.map fun p => p.message ++ "\n") }

/-- The version to upgrade a document from. -/
def documentVersion (version : Option UInt32) (v : Json) : Option UInt32 :=
  match version, Definition.version? v with
  | some n, _ => some n
  | none, some n => if n < UInt32.size then some (UInt32.ofNat n) else none
  | none, none => none

def upgradeFile (fs : FileAccess m) (file : String) (version : Option UInt32)
    (output : Option String) : Attempt m Answer := do
  let text <- readText fs "definition" file
  let v <- presentOrFail s!"failed to parse definition file: {file}" (Json.parse? text)
  let n <- presentOrFail "definition has no version; pass --from" (documentVersion version v)
  let (w, _) <- orFail "failed to upgrade definition" (upgrade v n)
  match output with
  | none => return { output := w.pretty ++ "\n" }
  | some path =>
      orFail s!"failed to write upgraded definition: {path}" (<- fs.write path w.pretty)
      return {}

def normalized (fs : FileAccess m) (file : String) : Attempt m Definition := do
  let d <- readDefinition fs file
  let g <- importDefinition file d
  orFail "failed to export definition" (g.toDefinition? d.frontMatter)

def normalize (fs : FileAccess m) (file : String) : Attempt m Answer := do
  let d <- normalized fs file
  return { output := d.text ++ "\n" }

def normalizeInto (fs : FileAccess m) (settings : Settings) (file folder id : String) :
    Attempt m Answer := do
  let d <- normalized fs file
  let session <- orFail "failed to open session"
    (Session.ofDefinition? settings.layout d { naming := .grouped })
  let snapshot <- orFail "failed to queue definition" (session.save true)
  match <- fs.save folder id snapshot with
  | .error e => throw s!"failed to save {id}: {e.message}"
  | .ok () =>
      return { notice := s!"Saved {id} ({snapshot.blocks.length} top-level blocks)" }

/-- A layout in JSON with blocks by their labels and markers by their ids. -/
def layoutJson (g : Graph) (l : Layout Float) : Json :=
  let name := fun id => ((g.node? id).bind Node.label?).getD id
  Json.canonical
    (.obj
      [("width", ofLength l.size.width),
       ("height", ofLength l.size.height),
       ("nodes", .obj (l.boxes.entries.map fun e => (name e.1, e.2.toJson))),
       ("hidden", .arr (l.hidden.map fun id => .str (name id)))])

def layout (fs : FileAccess m) (settings : Settings) (file : String)
    (sizes : Option String) : Attempt m Answer := do
  let d <- readDefinition fs file
  let g <- importDefinition file d
  let measured <-
    match sizes with
    | none => pure []
    | some path =>
        let text <- readText fs "sizes" path
        presentOrFail s!"failed to parse sizes file: {path}" (measuredSizes? text)
  let byId := measured.filterMap fun (label, size) =>
    (g.findByLabel? label).map fun n => (n.id, size)
  let l := Layout.ofGraph settings.layout g (.ofList byId)
  return { output := (layoutJson g l).pretty ++ "\n" }

def perform (fs : FileAccess m) (settings : Settings) : Option Action -> Attempt m Answer
  | none => return { output := "blockflow - use --help to see available commands\n" }
  | some (.validate file) => validate fs file
  | some (.upgrade file version output) => upgradeFile fs file version output
  | some (.normalize file) => normalize fs file
  | some (.store file folder id) => normalizeInto fs settings file folder id
  | some (.layout file sizes) => layout fs settings file sizes

/-- A run with arguments; `home` is the home directory of the user, if there is one. -/
def run (fs : FileAccess m) (home : Option String) (args : List String) : m Answer := do
  match Arguments.ofArgs args with
  | .invalid => return { exitCode := 2, notice := usage }
  | .asked .help => return { output := usage }
  | .asked .version => return { output := version }
  | .run path action =>
      let result <- ExceptT.run (do
        let settings <- readSettings fs home path
        perform fs settings action)
      match result with
      | .ok answer => return answer
      | .error message => return .failure message

end CommandLine
end Workflow
