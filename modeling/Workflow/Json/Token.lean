import Workflow.Json.Written

/-!
# JSON tokens

A text is cut into tokens one character at a time.  The state says what the
characters read so far have opened: a gap, a plain word, or a quoted text with
its escapes.
-/

namespace Workflow
namespace Json

inductive Token where
  | mark (c : Char)
  | text (pieces : List Piece)
  | scalar (v : Written)
  deriving Repr

def scalar? (cs : List Char) : Option Written :=
  if cs = "null".toList then some .null
  else if cs = "true".toList then some (.bool true)
  else if cs = "false".toList then some (.bool false)
  else (Numeral.ofChars? cs).map Written.number

/-!
# Characters
-/

def isGap (c : Char) : Bool :=
  c == ' ' || c == '\n' || c == '\t' || c == '\r'

def isMark (c : Char) : Bool :=
  c == '[' || c == ']' || c == '\x7b' || c == '\x7d' || c == ':' || c == ','

def isPlain (c : Char) : Bool :=
  c.isAlphanum || c == '-' || c == '+' || c == '.'

def hexValue? (c : Char) : Option Nat :=
  if c.isDigit then some (c.toNat - 48)
  else if 'a' <= c && c <= 'f' then some (c.toNat - 87)
  else if 'A' <= c && c <= 'F' then some (c.toNat - 55)
  else none

/-- The character named by a short escape. -/
def shortEscape? (c : Char) : Option Char :=
  if c == '\x22' || c == '\\' || c == '/' then some c
  else if c == 'b' then some '\x08'
  else if c == 'f' then some '\x0c'
  else if c == 'n' then some '\n'
  else if c == 'r' then some '\r'
  else if c == 't' then some '\t'
  else none

/-!
# Cutting a text
-/

/-- What the characters read so far have opened; what is collected stands last first. -/
inductive Mode where
  | gap
  | plain (done : List Char)
  | quoted (done : List Piece)
  | escape (done : List Piece)
  | code (done : List Piece) (left value : Nat)

structure Cut where
  mode : Mode
  tokens : List Token

namespace Cut

def open? (tokens : List Token) (c : Char) : Option Cut :=
  if isGap c then some ⟨.gap, tokens⟩
  else if isMark c then some ⟨.gap, .mark c :: tokens⟩
  else if c == '\x22' then some ⟨.quoted [], tokens⟩
  else if isPlain c then some ⟨.plain [c], tokens⟩
  else none

def step (s : Cut) (c : Char) : Option Cut :=
  match s.mode with
  | .gap => open? s.tokens c
  | .plain done =>
      if isPlain c then some ⟨.plain (c :: done), s.tokens⟩
      else
        match scalar? done.reverse with
        | none => none
        | some v => open? (.scalar v :: s.tokens) c
  | .quoted done =>
      if c == '\x22' then some ⟨.gap, .text done.reverse :: s.tokens⟩
      else if c == '\\' then some ⟨.escape done, s.tokens⟩
      else if c.toNat < 0x20 then none
      else some ⟨.quoted (.char c :: done), s.tokens⟩
  | .escape done =>
      if c == 'u' then some ⟨.code done 3 0, s.tokens⟩
      else (shortEscape? c).map fun d => ⟨.quoted (.char d :: done), s.tokens⟩
  | .code done left value =>
      match hexValue? c with
      | none => none
      | some digit =>
          let n := 16 * value + digit
          match left with
          | 0 => some ⟨.quoted (.code n :: done), s.tokens⟩
          | left + 1 => some ⟨.code done left n, s.tokens⟩

def close? (s : Cut) : Option (List Token) :=
  match s.mode with
  | .gap => some s.tokens.reverse
  | .plain done => (scalar? done.reverse).map fun v => (.scalar v :: s.tokens).reverse
  | _ => none

end Cut

/-- The tokens of a text, if it can be cut. -/
def tokens? (cs : List Char) : Option (List Token) :=
  match cs.foldlM Cut.step ⟨.gap, []⟩ with
  | none => none
  | some s => s.close?

end Json
end Workflow
