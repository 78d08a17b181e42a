/-!
# Arguments

The arguments of a run name a command, its file and its options.  The settings file may
be given before or after the command.  Nothing may be given twice in one place.  A value
is looked at when reading goes on after it, so a request for help is answered only if
all that was given before it in the same place will do.
-/

namespace Workflow
namespace CommandLine

inductive Action where
  | validate (file : String)
  | upgrade (file : String) (version : Option UInt32) (output : Option String)
  | normalize (file : String)
  | store (file folder id : String)
  | layout (file : String) (sizes : Option String)
  deriving DecidableEq, Repr

/-- What can be asked for in the place of a run. -/
inductive Request where
  | help
  | version
  deriving DecidableEq, Repr

inductive Arguments where
  | invalid
  | asked (request : Request)
  | run (settings : Option String) (action : Option Action)
  deriving DecidableEq, Repr

/-!
# Values
-/

def integer? (s : String) : Option Int :=
  let digits :=
    match s.toList with
    | '+' :: rest => rest
    | '-' :: rest => rest
    | cs => cs
  if digits.isEmpty || !digits.all Char.isDigit then none
  else
    let n : Nat := digits.foldl (fun n c => 10 * n + (c.toNat - 48)) 0
    some (if s.toList.head? == some '-' then -(n : Int) else n)

/-- A version, in the range of thirty-two bits. -/
def version? (s : String) : Option UInt32 :=
  match integer? s with
  | some n => if 0 <= n && n < UInt32.size then some (UInt32.ofNat n.toNat) else none
  | none => none

/-- Values by the names they are given for; the file of a command has the name `file`. -/
abbrev Values := List (String × String)

/-- Names whose value is a path, which is never empty. -/
def takesPath (name : String) : Bool :=
  ["file", "config", "output", "store", "sizes"].contains name

def accepts (name value : String) : Bool :=
  if takesPath name then !value.isEmpty
  else if name = "from" then (version? value).isSome
  else true

/-!
# Flags
-/

/-- An argument that is no plain word; a single dash is one. -/
def isFlag (s : String) : Bool :=
  s.toList.head? == some '-' && s != "-"

/-- The name of a long flag, and the value that is attached to it. -/
def splitFlag (cs : List Char) : String × Option String :=
  let name := String.ofList (cs.takeWhile fun c => c != '=')
  match cs.dropWhile fun c => c != '=' with
  | [] => (name, none)
  | _ :: value => (name, some (String.ofList value))

inductive Flag where
  | request (r : Request)
  | option (name : String) (value : Option String)
  | unknown
  deriving DecidableEq, Repr

/-- The flag of an argument where some options are known.  The version can be asked for
outside of commands only.  Of several short flags in one argument the first counts. -/
def Flag.ofArgument (options : List String) (inCommand : Bool) (a : String) : Flag :=
  match a.toList with
  | '-' :: '-' :: cs =>
      let (name, value) := splitFlag cs
      if options.contains name then .option name value
      else if value.isSome then .unknown
      else if name = "help" then .request .help
      else if name = "version" && !inCommand then .request .version
      else .unknown
  | '-' :: 'h' :: _ => .request .help
  | '-' :: 'V' :: _ => if inCommand then .unknown else .request .version
  | _ => .unknown

/-!
# Reading arguments in order
-/

/-- What has been read in one place.  The last value waits until reading goes on. -/
structure Reading where
  values : Values := []
  pending : Option (String × String) := none

namespace Reading

/-- The values when the last one has been looked at, too. -/
def settle? (r : Reading) : Option Values :=
  match r.pending with
  | none => some r.values
  | some (name, value) =>
      if accepts name value && !r.values.any fun v => v.1 == name then
        some (r.values ++ [(name, value)])
      else none

def give? (r : Reading) (name value : String) : Option Reading :=
  r.settle?.map fun values => { values, pending := some (name, value) }

/-- Goes on with a value that is looked at together with its name. -/
def giveAttached? (r : Reading) (name value : String) : Option Reading := do
  let values <- (<- r.give? name value).settle?
  return { values }

end Reading

inductive Ending where
  | invalid
  | asked (request : Request)
  | done (r : Reading)
  /-- A word where a command is expected. -/
  | word (name : String) (rest : List String) (r : Reading)

/-- Reads options, and files in a command. -/
def readArguments (options : List String) (inCommand : Bool) (r : Reading) :
    List String -> Ending
  | [] => .done r
  | a :: rest =>
      if a = "--" then
        if !inCommand then (if rest.isEmpty then .done r else .invalid)
        else
          match rest.foldlM (fun r file => r.give? "file" file) r with
          | some r => .done r
          | none => .invalid
      else if !isFlag a then
        if !inCommand then .word a rest r
        else
          match r.give? "file" a with
          | some r => readArguments options inCommand r rest
          | none => .invalid
      else
        match Flag.ofArgument options inCommand a, rest with
        | .unknown, _ => .invalid
        | .request request, _ => if r.settle?.isSome then .asked request else .invalid
        | .option name (some value), rest =>
            match r.giveAttached? name value with
            | some r => readArguments options inCommand r rest
            | none => .invalid
        | .option name none, value :: rest =>
            if isFlag value then .invalid
            else
              match r.give? name value with
              | some r => readArguments options inCommand r rest
              | none => .invalid
        | .option _ none, [] => .invalid

/-!
# Commands
-/

def optionsOf? (command : String) : Option (List String) :=
  if command = "validate" then some []
  else if command = "upgrade" then some ["from", "output"]
  else if command = "normalize" then some ["store", "id"]
  else if command = "layout" then some ["sizes"]
  else none

def action? (command : String) (values : Values) : Option Action := do
  let file <- values.lookup "file"
  if command = "validate" then return .validate file
  else if command = "upgrade" then
    return .upgrade file ((values.lookup "from").bind version?) (values.lookup "output")
  else if command = "normalize" then
    match values.lookup "store", values.lookup "id" with
    | some folder, some id => return .store file folder id
    | some _, none => none
    | none, _ => return .normalize file
  else if command = "layout" then return .layout file (values.lookup "sizes")
  else none

/-- Help can be asked for on one command, or on help itself. -/
def Arguments.ofHelp : List String -> Arguments
  | [] => .asked .help
  | [topic] =>
      if topic = "help" || (optionsOf? topic).isSome then .asked .help else .invalid
  | _ => .invalid

def Arguments.ofCommand (command : String) (args : List String) : Arguments :=
  match optionsOf? command with
  | none => if command = "help" then ofHelp args else .invalid
  | some options =>
      match readArguments ("config" :: options) true {} args with
      | .asked request => .asked request
      | .done r =>
          match r.settle? with
          | none => .invalid
          | some values =>
              match action? command values with
              | none => .invalid
              | some action => .run (values.lookup "config") action
      | _ => .invalid

/-- A settings file named after the command counts more than one named before.  The last
value before a command waits until the command has been read. -/
def Arguments.ofArgs (args : List String) : Arguments :=
  match readArguments ["config"] false {} args with
  | .invalid => .invalid
  | .asked request => .asked request
  | .done r =>
      match r.settle? with
      | none => .invalid
      | some values => .run (values.lookup "config") none
  | .word command rest r =>
      match ofCommand command rest, r.settle? with
      | .run settings action, some values =>
          .run (settings.orElse fun _ => values.lookup "config") action
      | .run _ _, none => .invalid
      | other, _ => other

end CommandLine
end Workflow
