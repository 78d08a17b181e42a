import Workflow.Definition.Load
import Workflow.Json.Printer
import Workflow.Store.Directory
import Workflow.Text.Quoted

/-!
# The definition store

A definition is kept in a file named after the id of its workflow.  It is written to a
staging file first, which is then renamed, so that a save that fails leaves the stored
definition as it was.
-/

namespace Workflow

/-!
# Errors
-/

inductive StoreError where
  | notFound (id : String)
  | invalidId (id : String)
  | io (e : IoError)
  | load (e : LoadError)
  deriving DecidableEq, Repr

namespace StoreError

def message : StoreError -> String
  | notFound id => s!"definition not found: {id}"
  | invalidId id => "invalid workflow id: " ++ Text.quote id
  | io e => s!"io error: {e.message}"
  | load e => s!"failed to load definition: {e.message}"

end StoreError

/-!
# File names
-/

namespace FileName

def ending : String := ".json"

def isValidId (id : String) : Bool :=
  !id.isEmpty && id != "." && id != ".." && !id.any fun c => c == '/' || c == '\\'

def ofId (id : String) : String :=
  id ++ ending

def staging (id : String) : String :=
  id ++ ending ++ ".tmp"

/-- The id of a file name, if it has the ending of definitions. -/
def id? (name : String) : Option String :=
  let cs := name.toList
  let stem := cs.take (cs.length - ending.length)
  if ending.toList.isSuffixOf cs && !stem.isEmpty then some (String.ofList stem) else none

end FileName

def Definition.text (d : Definition) : String :=
  d.toJson.pretty

/-!
# The store
-/

/-- A failure of the medium while a definition is saved.  A staging file that was not
written in full may hold any text. -/
inductive Fault where
  | create
  | staging (left : Option String)
  | rename
  deriving DecidableEq, Repr

structure Store where
  directory : Directory := {}

namespace Store

def stage (d : Directory) (id text : String) : Option Fault -> Except IoError Unit × Directory
  | some (.staging left) =>
      let d :=
        match left.map (d.write (FileName.staging id)) with
        | some (.ok d) => d
        | _ => d
      (.error .device, d)
  | _ =>
      match d.write (FileName.staging id) text with
      | .error e => (.error e, d)
      | .ok d => (.ok (), d)

def place (d : Directory) (id : String) : Option Fault -> Except IoError Unit × Directory
  | some .rename => (.error .device, d)
  | _ =>
      match d.rename (FileName.staging id) (FileName.ofId id) with
      | .error e => (.error e, d)
      | .ok d => (.ok (), d)

/-- Stores a definition; the medium may fail at one of the steps. -/
def save (s : Store) (id : String) (definition : Definition) (fault : Option Fault := none) :
    Except StoreError Unit × Store :=
  if !FileName.isValidId id then (.error (.invalidId id), s)
  else if fault = some .create then (.error (.io .device), s)
  else
    match stage s.directory.create id definition.text fault with
    | (.error e, d) => (.error (.io e), ⟨d⟩)
    | (.ok (), d) =>
        match place d id fault with
        | (.error e, d) => (.error (.io e), ⟨d⟩)
        | (.ok (), d) => (.ok (), ⟨d⟩)

/-- The definition stored for a workflow, at the current version. -/
def load (s : Store) (id : String) : Except StoreError Definition :=
  if !FileName.isValidId id then .error (.invalidId id)
  else
    match s.directory.read (FileName.ofId id) with
    | .error .notFound => .error (.notFound id)
    | .error e => .error (.io e)
    | .ok text =>
        match Definition.load? text with
        | .error e => .error (.load e)
        | .ok d => .ok d

/-- The ids of everything that is stored, in order. -/
def list (s : Store) : List String :=
  (Table.ofList ((s.directory.names.filterMap FileName.id?).map fun id => (id, ()))).keys

end Store
end Workflow
