import Workflow.Toml.Quoted
import Workflow.Toml.Word

/-!
# Reading TOML

A document is cut into statements, one on a line.  Each function here answers what it
read from the start of a list of characters, with the rest of the list; where one goes
on and on, the length of the list is enough fuel.
-/

namespace Workflow
namespace Toml

/-- Lists and tables may be nested in one another this deep, and a path may have as many
keys. -/
def maxDepth : Nat := 79

/-!
# Gaps
-/

def skipBlanks (cs : List Char) : List Char :=
  cs.dropWhile isBlank

/-- The list after a comment, if one starts here; the end of the line stays. -/
def skipComment? : List Char -> Option (List Char)
  | '#' :: rest =>
      match rest.dropWhile isPrintable with
      | [] => some []
      | '\n' :: rest => some ('\n' :: rest)
      | _ => none
  | cs => some cs

/-- The list after blanks, newlines and comments. -/
def skipGaps? : Nat -> List Char -> Option (List Char)
  | 0, cs => some cs
  | fuel + 1, cs =>
      match skipComment? (skipBlanks cs) with
      | none => none
      | some ('\n' :: rest) => skipGaps? fuel rest
      | some rest => some rest

def gaps? (cs : List Char) : Option (List Char) :=
  skipGaps? (cs.length + 1) cs

/-- The list after the end of a line, which a comment may precede. -/
def endOfLine? (cs : List Char) : Option (List Char) :=
  match skipComment? (skipBlanks cs) with
  | some [] => some []
  | some ('\n' :: rest) => some rest
  | _ => none

/-!
# Keys
-/

def isBare (c : Char) : Bool :=
  c.isAlphanum || c == '_' || c == '-'

def key? (cs : List Char) : Option (String × List Char) :=
  match cs.takeWhile isBare with
  | [] => (line? cs).map fun (name, rest) => (String.ofList name, rest)
  | name => some (String.ofList name, cs.dropWhile isBare)

/-- A path of at most so many keys with dots between them: those before the last, and the
last. -/
def pathOf? : Nat -> List Char -> Option ((List String × String) × List Char)
  | 0, _ => none
  | left + 1, cs => do
      let (key, rest) <- key? (skipBlanks cs)
      match skipBlanks rest with
      | '.' :: rest =>
          let ((path, last), rest) <- pathOf? left rest
          return ((key :: path, last), rest)
      | rest => return (([], key), rest)

def path? : List Char -> Option ((List String × String) × List Char) :=
  pathOf? maxDepth

/-!
# Values
-/

abbrev Reader := List Char -> Option (Toml × List Char)

def isWordPart (c : Char) : Bool :=
  c.isAlphanum || c == '_' || c == '-' || c == '+' || c == '.' || c == ':'

/-- A word; a date and a time of day may stand apart. -/
def word? (cs : List Char) : Option (Toml × List Char) :=
  let word := cs.takeWhile isWordPart
  let rest := cs.dropWhile isWordPart
  match date? word, rest with
  | some [], ' ' :: d :: _ =>
      if d.isDigit then
        let time := (rest.drop 1).takeWhile isWordPart
        (ofWord? (word ++ ' ' :: time)).map fun v => (v, (rest.drop 1).dropWhile isWordPart)
      else (ofWord? word).map fun v => (v, rest)
  | _, _ => (ofWord? word).map fun v => (v, rest)

/-- The items of a list up to its closing bracket; a comma may follow the last. -/
def items? (value : Reader) : Nat -> List Char -> Option (List Toml × List Char)
  | 0, _ => none
  | fuel + 1, cs => do
      match <- gaps? cs with
      | ']' :: rest => return ([], rest)
      | cs =>
          let (v, rest) <- value cs
          match <- gaps? rest with
          | ',' :: rest =>
              let (vs, rest) <- items? value fuel rest
              return (v :: vs, rest)
          | ']' :: rest => return ([v], rest)
          | _ => none

/-- A path, the sign of assignment and a value. -/
def assignment? (value : Reader) (cs : List Char) :
    Option ((List String × String × Toml) × List Char) := do
  let ((path, key), rest) <- path? cs
  match rest with
  | '=' :: rest =>
      let (v, rest) <- value (skipBlanks rest)
      return ((path, key, v), rest)
  | _ => none

/-- The assignments of a table up to its closing brace, after one at least. -/
def members? (value : Reader) : Nat -> List Char ->
    Option (List (List String × String × Toml) × List Char)
  | 0, _ => none
  | fuel + 1, cs => do
      let (a, rest) <- assignment? value cs
      match skipBlanks rest with
      | ',' :: rest =>
          let (as, rest) <- members? value fuel rest
          return (a :: as, rest)
      | '\x7d' :: rest => return ([a], rest)
      | _ => none

def braced? (value : Reader) (cs : List Char) : Option (Toml × List Char) :=
  match skipBlanks cs with
  | '\x7d' :: rest => some (closed [], rest)
  | cs => do
      let (as, rest) <- members? value cs.length cs
      let entries <- ofAssignments? as
      return (closed entries, rest)

/-- A value that holds no other values. -/
def plain? (cs : List Char) : Option (Toml × List Char) :=
  match cs with
  | [] => none
  | c :: _ =>
      if c == quote || c == apostrophe then
        (quoted? cs).map fun (s, rest) => (text (String.ofList s), rest)
      else word? cs

/-- A value that nests lists and tables at most this deep. -/
def value? : Nat -> Reader
  | 0, cs => plain? cs
  | depth + 1, cs =>
      match cs with
      | '[' :: rest =>
          (items? (value? depth) (rest.length + 1) rest).map fun (vs, rest) => (list vs, rest)
      | '\x7b' :: rest => braced? (value? depth) rest
      | cs => plain? cs

/-!
# Statements
-/

def header? (cs : List Char) : Option ((List String × String) × List Char) := do
  let (path, rest) <- path? cs
  match rest with
  | ']' :: rest => return (path, rest)
  | _ => none

def statement? (cs : List Char) : Option (Statement × List Char) :=
  match cs with
  | '[' :: '[' :: rest => do
      let ((path, key), rest) <- header? rest
      match rest with
      | ']' :: rest => return (.item path key, rest)
      | _ => none
  | '[' :: rest => do
      let ((path, key), rest) <- header? rest
      return (.header path key, rest)
  | cs => do
      let ((path, key, v), rest) <- assignment? (value? maxDepth) cs
      return (.assign path key v, rest)

def statements? : Nat -> List Char -> Option (List Statement)
  | 0, _ => none
  | fuel + 1, cs => do
      match <- gaps? cs with
      | [] => return []
      | cs =>
          let (s, rest) <- statement? cs
          let rest <- endOfLine? rest
          let ss <- statements? fuel rest
          return s :: ss

/-- Pairs of carriage return and newline become single newlines. -/
def joinLineEnds : List Char -> List Char
  | [] => []
  | '\r' :: '\n' :: rest => '\n' :: joinLineEnds rest
  | c :: rest => c :: joinLineEnds rest

/-- A mark of the byte order at the start is skipped. -/
def dropOrderMark : List Char -> List Char
  | '\uFEFF' :: rest => rest
  | cs => cs

def parse? (s : String) : Option Json := do
  let cs := joinLineEnds (dropOrderMark s.toList)
  let statements <- statements? (cs.length + 1) cs
  let entries <- ofStatements? statements
  return .obj (entriesToJson entries)

end Toml
end Workflow
