import Workflow.Json.Numeral

/-!
# Written JSON

A written value is what a text holds by its grammar alone: numbers may be too large and
escapes may name half of a character, and containers may be nested without bound.  The
value it stands for is there only when none of this is the case.
-/

namespace Workflow
namespace Json

/-!
# Texts
-/

/-- A part of a quoted text: a character, or an escape of four hexadecimal digits. -/
inductive Piece where
  | char (c : Char)
  | code (n : Nat)
  deriving DecidableEq, Repr

def isHigh (n : Nat) : Bool :=
  0xD800 <= n && n <= 0xDBFF

def isLow (n : Nat) : Bool :=
  0xDC00 <= n && n <= 0xDFFF

/-- The character that a high and a low code name together. -/
def joinCodes (high low : Nat) : Char :=
  Char.ofNat (0x10000 + (high - 0xD800) * 0x400 + (low - 0xDC00))

/-- The characters of a text after those read so far, which stand last first.  A high
code must have a low one after it, and a low one a high one before it. -/
def decodeAfter? (done : List Char) : List Piece -> Option (List Char)
  | [] => some done.reverse
  | .char c :: rest => decodeAfter? (c :: done) rest
  | .code n :: rest =>
      if isHigh n then
        match rest with
        | .code low :: rest =>
            if isLow low then decodeAfter? (joinCodes n low :: done) rest else none
        | _ => none
      else if isLow n then none
      else decodeAfter? (Char.ofNat n :: done) rest

def decode? (pieces : List Piece) : Option String :=
  (decodeAfter? [] pieces).map String.ofList

/-!
# Values
-/

inductive Written where
  | null
  | bool (b : Bool)
  | number (n : Numeral)
  | text (pieces : List Piece)
  | arr (items : List Written)
  | obj (members : List (List Piece × Written))
  deriving Repr, Inhabited

namespace Written

mutual

/-- The value, if it opens no more than `room` containers at once. -/
def value? (room : Nat) : Written -> Option Json
  | null => some .null
  | bool b => some (.bool b)
  | number n => n.value?
  | text pieces => (decode? pieces).map Json.str
  | arr items =>
      match room with
      | 0 => none
      | room + 1 => (itemValues? room items).map Json.arr
  | obj members =>
      match room with
      | 0 => none
      | room + 1 => (memberValues? room members).map Json.obj

def itemValues? (room : Nat) : List Written -> Option (List Json)
  | [] => some []
  | v :: rest =>
      match value? room v, itemValues? room rest with
      | some v, some vs => some (v :: vs)
      | _, _ => none

def memberValues? (room : Nat) :
    List (List Piece × Written) -> Option (List (String × Json))
  | [] => some []
  | (key, v) :: rest =>
      match decode? key, value? room v, memberValues? room rest with
      | some key, some v, some vs => some ((key, v) :: vs)
      | _, _, _ => none

end

def members? : Written -> Option (List (String × Written))
  | obj members => members.mapM fun (key, v) => (decode? key).map fun key => (key, v)
  | _ => none

end Written

end Json
end Workflow
