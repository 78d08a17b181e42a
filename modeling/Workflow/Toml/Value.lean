import Workflow.Json.Value

/-!
# TOML documents as values

A document is a list of statements: headers, which open a table, and assignments,
which put a value into the table that is open.  Keys are paths.  A table may be
filled in several places as long as it was not closed by its form, and no key is
assigned twice.
-/

namespace Workflow

/-- How a table came to be: by a header of its own, by a longer header, or by a path
in an assignment. -/
inductive TableOrigin where
  | header
  | implied
  | path
  deriving DecidableEq, Repr

inductive Toml where
  | text (s : String)
  | int (n : Int)
  | real (x : Number.Double)
  | bool (b : Bool)
  | moment (s : String)
  | list (items : List Toml)
  | closed (entries : List (String × Toml))
  | table (origin : TableOrigin) (entries : List (String × Toml))
  | tables (items : List (List (String × Toml)))

namespace Toml

abbrev Entries := List (String × Toml)

inductive Statement where
  | header (path : List String) (key : String)
  | item (path : List String) (key : String)
  | assign (path : List String) (key : String) (value : Toml)

/-!
# Filling tables
-/

/-- Changes or creates the entry of a key. -/
def modifyEntry (key : String) (f : Option Toml -> Option Toml) : Entries -> Option Entries
  | [] => (f none).map fun v => [(key, v)]
  | (k, v) :: rest =>
      if k = key then (f (some v)).map fun w => (k, w) :: rest
      else (modifyEntry key f rest).map fun es => (k, v) :: es

def modifyFinal (f : Entries -> Option Entries) : List Entries -> Option (List Entries)
  | [] => none
  | [es] => (f es).map fun es => [es]
  | es :: rest => (modifyFinal f rest).map fun items => es :: items

/-- Goes along the path of a header; tables on the way need not exist. -/
def alongHeader (f : Entries -> Option Entries) : List String -> Entries -> Option Entries
  | [], es => f es
  | key :: path, es =>
      modifyEntry key
        (fun
          | none => (alongHeader f path []).map (table .implied)
          | some (table origin inner) => (alongHeader f path inner).map (table origin)
          | some (tables items) => (modifyFinal (alongHeader f path) items).map tables
          | some _ => none)
        es

/-- Assigns a value at the end of a path.  The table at the end of a longer path must
have been made by such a path itself. -/
def assignAlong (key : String) (v : Toml) (allowed : Bool) :
    List String -> Entries -> Option Entries
  | [], es =>
      if allowed then
        modifyEntry key
          (fun
            | none => some v
            | some _ => none)
          es
      else none
  | step :: path, es =>
      modifyEntry step
        (fun
          | none => (assignAlong key v true path []).map (table .path)
          | some (table .path inner) => (assignAlong key v true path inner).map (table .path)
          | some (table .implied inner) =>
              (assignAlong key v false path inner).map (table .implied)
          | some (tables items) =>
              (modifyFinal (assignAlong key v false path) items).map tables
          | some _ => none)
        es

/-- A table by a header of its own, which may have been implied before. -/
def openTable (key : String) : Entries -> Option Entries :=
  modifyEntry key fun
    | none => some (table .header [])
    | some (table .implied inner) => some (table .header inner)
    | some _ => none

/-- One more of several tables with one name. -/
def openItem (key : String) : Entries -> Option Entries :=
  modifyEntry key fun
    | none => some (tables [[]])
    | some (tables items) => some (tables (items ++ [[]]))
    | some _ => none

/-- The entries of a document, and the path of the table that is open. -/
structure Filling where
  entries : Entries := []
  current : List String := []

def Filling.add (s : Filling) : Statement -> Option Filling
  | .header path key =>
      (alongHeader (openTable key) path s.entries).map fun es => ⟨es, path ++ [key]⟩
  | .item path key =>
      (alongHeader (openItem key) path s.entries).map fun es => ⟨es, path ++ [key]⟩
  | .assign path key v =>
      (alongHeader (assignAlong key v true path) s.current s.entries).map fun es =>
        ⟨es, s.current⟩

def ofStatements? (statements : List Statement) : Option Entries :=
  (statements.foldlM Filling.add {}).map Filling.entries

def ofAssignments? (assignments : List (List String × String × Toml)) : Option Entries :=
  assignments.foldlM (fun es (path, key, v) => assignAlong key v true path es) []

/-!
# In JSON
-/

mutual

/-- The same value in JSON; a moment becomes an object with one member. -/
def toJson : Toml -> Json
  | text s => .str s
  | int n => .int n
  | real x => .real x
  | bool b => .bool b
  | moment s => .obj [("moment", .str s)]
  | list items => .arr (itemsToJson items)
  | closed entries => .obj (entriesToJson entries)
  | table _ entries => .obj (entriesToJson entries)
  | tables items => .arr (tablesToJson items)

def itemsToJson : List Toml -> List Json
  | [] => []
  | v :: rest => toJson v :: itemsToJson rest

def entriesToJson : List (String × Toml) -> List (String × Json)
  | [] => []
  | (key, v) :: rest => (key, toJson v) :: entriesToJson rest

def tablesToJson : List (List (String × Toml)) -> List Json
  | [] => []
  | es :: rest => .obj (entriesToJson es) :: tablesToJson rest

end

end Toml
end Workflow
