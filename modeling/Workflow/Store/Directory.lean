import Workflow.Table

/-!
# Directories

A directory holds files and folders by name.  It may be absent until something is put
into it.  Which names it can hold is up to the medium it lies on.
-/

namespace Workflow

inductive IoError where
  | nulInName
  | nameTooLong
  | notFound
  | isFolder
  | notAFolder
  | alreadyExists
  | device
  | other (reason : String)
  deriving DecidableEq, Repr

namespace IoError

def message : IoError -> String
  | nulInName => "file name contained an unexpected NUL byte"
  | nameTooLong => "File name too long (os error 36)"
  | notFound => "No such file or directory (os error 2)"
  | isFolder => "Is a directory (os error 21)"
  | notAFolder => "Not a directory (os error 20)"
  | alreadyExists => "File exists (os error 17)"
  | device => "Input/output error (os error 5)"
  | other reason => reason

end IoError

inductive Entry where
  | file (text : String)
  | folder
  deriving DecidableEq, Repr

structure Medium where
  /-- The greatest length of a name in bytes, if there is one. -/
  longestName : Option Nat
  refusesNul : Bool

namespace Medium

/-- A medium that takes every name. -/
def unlimited : Medium := ⟨none, false⟩

/-- The limits that are common on disks. -/
def disk : Medium := ⟨some 255, true⟩

def refusesName (m : Medium) (name : String) : Bool :=
  m.refusesNul && name.any fun c => c == '\x00'

def isTooLong (m : Medium) (name : String) : Bool :=
  m.longestName.any fun n => n < name.utf8ByteSize

end Medium

structure Directory where
  medium : Medium := .disk
  entries : Option (Table Entry) := none

namespace Directory

def create (d : Directory) : Directory :=
  { d with entries := some (d.entries.getD .empty) }

def names (d : Directory) : List String :=
  (d.entries.map Table.keys).getD []

/-- The entry of a name, when the name can be looked up. -/
def find? (d : Directory) (name : String) : Except IoError Entry :=
  if d.medium.refusesName name then .error .nulInName
  else
    match d.entries with
    | none => .error .notFound
    | some t =>
        if d.medium.isTooLong name then .error .nameTooLong
        else
          match t.get? name with
          | none => .error .notFound
          | some e => .ok e

def read (d : Directory) (name : String) : Except IoError String :=
  match d.find? name with
  | .error e => .error e
  | .ok .folder => .error .isFolder
  | .ok (.file text) => .ok text

/-- Puts an entry in the place of a file or of nothing. -/
def put (d : Directory) (name : String) (entry : Entry) : Except IoError Directory :=
  match d.find? name, d.entries with
  | .ok .folder, _ => .error .isFolder
  | .ok (.file _), some t => .ok { d with entries := some (t.insert name entry) }
  | .error .notFound, some t => .ok { d with entries := some (t.insert name entry) }
  | .error e, _ => .error e
  | .ok (.file _), none => .error .notFound

def write (d : Directory) (name text : String) : Except IoError Directory :=
  d.put name (.file text)

/-- Gives a file another name; a file of that name is replaced. -/
def rename (d : Directory) (old new : String) : Except IoError Directory :=
  match d.read old with
  | .error e => .error e
  | .ok text =>
      match d.write new text with
      | .error e => .error e
      | .ok d => .ok { d with entries := d.entries.map fun t => t.erase old }

end Directory
end Workflow
