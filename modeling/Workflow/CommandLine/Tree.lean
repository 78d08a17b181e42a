import Workflow.Store.Basic

/-!
# Files by path

A command reads and writes files by their paths.  It does so through an interface that
is the same for the files of a machine and for a tree of files that is a plain value.
-/

namespace Workflow

structure FileAccess (m : Type -> Type) where
  read : String -> m (Except IoError String)
  write : String -> String -> m (Except IoError Unit)
  /-- Saves a definition into the store that is kept in a folder. -/
  save : String -> String -> Definition -> m (Except StoreError Unit)

/-- Folders and files.  The way to one is the list of the names that lead to it from the
top; every folder on it is an entry, too. -/
structure Tree where
  workingFolder : List String := []
  entries : Table Entry := .empty

namespace Tree

/-!
# Entries
-/

/-- The key of an entry, with a slash before each name on the way. -/
def key (way : List String) : String :=
  String.join (way.map fun name => "/" ++ name)

def entry? (t : Tree) (way : List String) : Option Entry :=
  if way.isEmpty then some .folder else t.entries.get? (key way)

def insert (t : Tree) (way : List String) (e : Entry) : Tree :=
  { t with entries := t.entries.insert (key way) e }

/-- Puts folders on a way after the folders before it. -/
def insertFolders (t : Tree) (before : List String) : List String -> Tree
  | [] => t
  | name :: rest =>
      (t.insert (before ++ [name]) .folder).insertFolders (before ++ [name]) rest

/-- A tree of folders alone that lead to the working directory. -/
def ofWorkingFolder (way : List String) : Tree :=
  ({ workingFolder := way } : Tree).insertFolders [] way

/-!
# Paths
-/

def splitSlashes (cs : List Char) : List (List Char) :=
  cs.foldr
    (fun c parts =>
      match parts with
      | [] => [[c]]
      | p :: rest => if c == '/' then [] :: p :: rest else (c :: p) :: rest)
    [[]]

/-- The names in a path; nothing before, between or after slashes stays an empty name. -/
def names (path : String) : List String :=
  (splitSlashes path.toList).map String.ofList

/-- The way on which a path starts: the top or the working directory. -/
def start (t : Tree) (path : String) : List String :=
  if path.toList.head? == some '/' then [] else t.workingFolder

/-- The bytes of a path stay below this number. -/
def longestPath : Nat := 4096

/-- An empty name stays in a folder just as a single dot does. -/
def staysPut (name : String) : Bool :=
  name.isEmpty || name == "."

/-- Follows names from the end of a way.  What a name is followed from must be a folder;
where the last one leads there need not be an entry. -/
def follow (t : Tree) (way : List String) : List String -> Except IoError (List String)
  | [] => .ok way
  | name :: rest =>
      match t.entry? way with
      | none => .error .notFound
      | some (.file _) => .error .notAFolder
      | some .folder =>
          if staysPut name then t.follow way rest
          else if name = ".." then t.follow way.dropLast rest
          else if Medium.disk.isTooLong name then .error .nameTooLong
          else t.follow (way ++ [name]) rest

def wayOf (t : Tree) (path : String) : Except IoError (List String) :=
  if path.isEmpty then .error .notFound
  else if longestPath <= path.utf8ByteSize then .error .nameTooLong
  else t.follow (t.start path) (names path)

/-!
# Files
-/

def read (t : Tree) (path : String) : Except IoError String :=
  match t.wayOf path with
  | .error e => .error e
  | .ok way =>
      match t.entry? way with
      | none => .error .notFound
      | some .folder => .error .isFolder
      | some (.file text) => .ok text

def write (t : Tree) (path text : String) : Except IoError Tree :=
  match t.wayOf path with
  | .error e => .error e
  | .ok way =>
      if t.entry? way == some .folder then .error .isFolder
      else .ok (t.insert way (.file text))

/-!
# Folders
-/

/-- Follows names from the end of a way and creates the folders that are missing. -/
def createAlong (t : Tree) (way : List String) :
    List String -> Except IoError (Tree × List String)
  | [] => .ok (t, way)
  | name :: rest =>
      if staysPut name then t.createAlong way rest
      else if name = ".." then t.createAlong way.dropLast rest
      else if Medium.disk.isTooLong name then .error .nameTooLong
      else
        let inner := way ++ [name]
        match t.entry? inner with
        | none => (t.insert inner .folder).createAlong inner rest
        | some .folder => t.createAlong inner rest
        | some (.file _) =>
            .error (if rest.all String.isEmpty then .alreadyExists else .notAFolder)

/-- Creates the folder of a path with every folder above it, and answers its way.  A
path that ends in a dot names a folder that is there. -/
def createFolder (t : Tree) (path : String) : Except IoError (Tree × List String) :=
  let steps := (names path).filter fun name => !name.isEmpty
  if path.isEmpty || longestPath <= path.utf8ByteSize || steps.getLast? == some "." then
    match t.wayOf path with
    | .error e => .error e
    | .ok way => if t.entry? way == some .folder then .ok (t, way) else .error .notFound
  else t.createAlong (t.start path) (names path)

/-- Puts a file below the working directory, with the folders above it. -/
def putFile (t : Tree) (path text : String) : Tree :=
  let steps := (names path).filter fun name => !staysPut name
  (t.insertFolders t.workingFolder steps.dropLast).insert
    (t.workingFolder ++ steps) (.file text)

/-!
# Stores in folders
-/

def directory (t : Tree) (way : List String) : Directory :=
  let inner := (key way ++ "/").toList
  let entries := t.entries.entries.filterMap fun (key, e) =>
    let cs := key.toList
    let name := cs.drop inner.length
    if inner.isPrefixOf cs && !name.contains '/' then some (String.ofList name, e) else none
  { entries := some (.ofList entries) }

/-- Puts the entries of a directory in the place of those at the end of a way. -/
def setDirectory (t : Tree) (way : List String) (d : Directory) : Tree :=
  let old := (t.directory way).names
  let cleared := old.foldl (fun table name => table.erase (key (way ++ [name]))) t.entries
  let entries := ((d.entries.map Table.entries).getD []).foldl
    (fun table e => table.insert (key (way ++ [e.1])) e.2) cleared
  { t with entries }

def save (t : Tree) (folder id : String) (definition : Definition) :
    Except StoreError Unit × Tree :=
  if !FileName.isValidId id then (.error (.invalidId id), t)
  else
    match t.createFolder folder with
    | .error e => (.error (.io e), t)
    | .ok (t, way) =>
        let (result, store) := Store.save ⟨t.directory way⟩ id definition
        (result, t.setDirectory way store.directory)

def access : FileAccess (StateM Tree) where
  read path := return (<- get).read path
  write path text := do
    match (<- get).write path text with
    | .error e => return .error e
    | .ok t =>
        set t
        return .ok ()
  save folder id definition := do
    let (result, t) := (<- get).save folder id definition
    set t
    return result

end Tree
end Workflow
