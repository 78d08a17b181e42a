import Workflow.Json.Token

/-!
# Quoted texts in TOML

A text stands in quotes, with escapes, or in apostrophes, as it is.  Three marks
instead of one let it go over several lines.  Line ends are single newlines here.
-/

namespace Workflow
namespace Toml

/-- A text read from the start of a list, and the rest of the list. -/
abbrev Quoted := Option (List Char × List Char)

def quote : Char := '\x22'
def apostrophe : Char := '\x27'

def isBlank (c : Char) : Bool :=
  c == ' ' || c == '\t'

/-- The characters that may stand on a line as they are. -/
def isPrintable (c : Char) : Bool :=
  c == '\t' || (0x20 <= c.toNat && c.toNat != 0x7f)

def Quoted.push (c : Char) (q : Quoted) : Quoted :=
  q.map fun (cs, rest) => (c :: cs, rest)

/-!
# Escapes
-/

def shortEscape? (c : Char) : Option Char :=
  if c == quote || c == '\\' then some c
  else if c == 'b' then some '\x08'
  else if c == 'f' then some '\x0c'
  else if c == 'n' then some '\n'
  else if c == 'r' then some '\r'
  else if c == 't' then some '\t'
  else none

/-- The character with a code in hexadecimal. -/
def coded? (cs : List Char) : Option Char := do
  let ds <- cs.mapM Json.hexValue?
  let n := ds.foldl (fun n d => 16 * n + d) 0
  if n.isValidChar then some (Char.ofNat n) else none

def escape? : List Char -> Option (Char × List Char)
  | 'u' :: rest =>
      if rest.length < 4 then none else (coded? (rest.take 4)).map fun c => (c, rest.drop 4)
  | 'U' :: rest =>
      if rest.length < 8 then none else (coded? (rest.take 8)).map fun c => (c, rest.drop 8)
  | c :: rest => (shortEscape? c).map fun d => (d, rest)
  | [] => none

/-!
# One line
-/

/-- The rest of a text in quotes.  Every step takes a character, so the length of the
list is enough fuel. -/
def basic : Nat -> List Char -> Quoted
  | 0, _ => none
  | _, [] => none
  | fuel + 1, c :: rest =>
      if c == quote then some ([], rest)
      else if c == '\\' then
        match escape? rest with
        | none => none
        | some (d, rest) => (basic fuel rest).push d
      else if isPrintable c then (basic fuel rest).push c
      else none

/-- The rest of a text in apostrophes. -/
def literal : List Char -> Quoted
  | [] => none
  | c :: rest =>
      if c == apostrophe then some ([], rest)
      else if isPrintable c then (literal rest).push c
      else none

/-!
# Several lines
-/

/-- The end of a text over several lines: three marks, with up to two more before them
that belong to the text. -/
def ending? (mark : Char) (cs : List Char) : Option (List Char × List Char) :=
  let marks := cs.takeWhile fun c => c == mark
  if marks.length < 3 then none
  else some (List.replicate (min marks.length 5 - 3) mark, cs.drop (min marks.length 5))

/-- The rest of a text in quotes.  A line that ends in a backslash goes on at the next
character that is no gap. -/
def basicLines : Nat -> List Char -> Quoted
  | 0, _ => none
  | _, [] => none
  | fuel + 1, c :: rest =>
      match ending? quote (c :: rest) with
      | some found => some found
      | none =>
          if c == '\\' then
            if (rest.dropWhile isBlank).head? == some '\n' then
              basicLines fuel (rest.dropWhile fun d => isBlank d || d == '\n')
            else
              match escape? rest with
              | none => none
              | some (d, rest) => (basicLines fuel rest).push d
          else if isPrintable c || c == '\n' then (basicLines fuel rest).push c
          else none

/-- The rest of a text in apostrophes. -/
def literalLines : List Char -> Quoted
  | [] => none
  | c :: rest =>
      match ending? apostrophe (c :: rest) with
      | some found => some found
      | none =>
          if isPrintable c || c == '\n' then (literalLines rest).push c else none

/-- A newline right after the opening marks is no part of the text. -/
def dropNewline : List Char -> List Char
  | '\n' :: rest => rest
  | cs => cs

/-!
# Any form
-/

def line? (cs : List Char) : Quoted :=
  match cs with
  | [] => none
  | c :: rest =>
      if c == quote then basic cs.length rest
      else if c == apostrophe then literal rest
      else none

/-- A text in any of the four forms that starts here. -/
def quoted? (cs : List Char) : Quoted :=
  if List.isPrefixOf [quote, quote, quote] cs then
    basicLines cs.length (dropNewline (cs.drop 3))
  else if List.isPrefixOf [apostrophe, apostrophe, apostrophe] cs then
    literalLines (dropNewline (cs.drop 3))
  else line? cs

end Toml
end Workflow
