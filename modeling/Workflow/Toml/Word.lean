import Workflow.Json.Token
import Workflow.Toml.Value

/-!
# Plain values in TOML

A value outside of quotes and brackets is a word: a truth value, a number or a moment.
Digits may be grouped by single underscores.
-/

namespace Workflow
namespace Toml

/-!
# Digits
-/

/-- Digits without the underscores between them; none may stand at either end or beside
another. -/
def ungroup? (isDigit : Char -> Bool) : List Char -> Option (List Char)
  | [] => none
  | [c] => if isDigit c then some [c] else none
  | c :: '_' :: rest =>
      if isDigit c then (ungroup? isDigit rest).map fun ds => c :: ds else none
  | c :: rest => if isDigit c then (ungroup? isDigit rest).map fun ds => c :: ds else none

def digits? : List Char -> Option (List Char) :=
  ungroup? Char.isDigit

/-- Digits that do not start with a needless zero. -/
def wholeDigits? (cs : List Char) : Option (List Char) :=
  match digits? cs with
  | some ('0' :: _ :: _) => none
  | ds? => ds?

def splitSign : List Char -> Bool × List Char
  | '-' :: rest => (true, rest)
  | '+' :: rest => (false, rest)
  | rest => (false, rest)

/-!
# Integers
-/

def fitsSigned (n : Int) : Bool :=
  -Int.pow 2 63 <= n && n < Int.pow 2 63

/-- The number written by digits in another base than ten. -/
def based? (base : Nat) (cs : List Char) : Option Int := do
  let isDigit := fun c => (Json.hexValue? c).any fun n => n < base
  let ds <- ungroup? isDigit cs
  return (ds.foldl (fun n c => base * n + (Json.hexValue? c).getD 0) 0 : Nat)

def unbounded? (word : List Char) : Option Int :=
  match word with
  | '0' :: 'x' :: rest => based? 16 rest
  | '0' :: 'o' :: rest => based? 8 rest
  | '0' :: 'b' :: rest => based? 2 rest
  | _ =>
      let (negative, rest) := splitSign word
      (wholeDigits? rest).map fun ds =>
        let n : Int := Json.decimalValue ds
        if negative then -n else n

def integer? (word : List Char) : Option Int :=
  (unbounded? word).filter fitsSigned

/-!
# Doubles
-/

/-- The words for the numbers that are not finite. -/
def endless? (word : List Char) : Option Number.Double :=
  let (negative, rest) := splitSign word
  let sign := if negative then Nat.pow 2 63 else 0
  if rest = "inf".toList then some ⟨UInt64.ofNat (sign + 2047 * Nat.pow 2 52)⟩
  else if rest = "nan".toList then some ⟨UInt64.ofNat (sign + 2047 * Nat.pow 2 52 + Nat.pow 2 51)⟩
  else none

/-- Splits a list at the first element that satisfies a test, which is dropped. -/
def splitAtFirst (p : Char -> Bool) (cs : List Char) : List Char × Option (List Char) :=
  match cs.dropWhile fun c => !p c with
  | [] => (cs, none)
  | _ :: rest => (cs.takeWhile fun c => !p c, some rest)

def exponent? (cs? : Option (List Char)) : Option Int :=
  match cs? with
  | none => some 0
  | some cs =>
      let (negative, rest) := splitSign cs
      (digits? rest).map fun ds =>
        let n : Int := Json.decimalValue ds
        if negative then -n else n

def fraction? (cs? : Option (List Char)) : Option (List Char) :=
  match cs? with
  | none => some []
  | some cs => digits? cs

/-- A number with a fraction or an exponent.  One too far below zero for a double is
infinite; one too far above is refused. -/
def decimal? (word : List Char) : Option Number.Double := do
  let (negative, rest) := splitSign word
  let (mantissa, exponentPart) := splitAtFirst (fun c => c == 'e' || c == 'E') rest
  let (wholePart, fractionPart) := splitAtFirst (fun c => c == '.') mantissa
  let whole <- wholeDigits? wholePart
  let fraction <- fraction? fractionPart
  let e <- exponent? exponentPart
  if fractionPart.isNone && exponentPart.isNone then none
  else
    let x := Number.Double.ofDecimal negative (Json.decimalValue (whole ++ fraction))
      (e - fraction.length)
    if x.isFinite || x.isNegative then some x else none

/-!
# Moments
-/

/-- A number of exactly `n` digits at the start of a list. -/
def fixed? (n : Nat) (cs : List Char) : Option (Nat × List Char) :=
  let ds := cs.take n
  if ds.length == n && ds.all Char.isDigit then some (Json.decimalValue ds, cs.drop n)
  else none

def mark? (c : Char) : List Char -> Option (List Char)
  | d :: rest => if c == d then some rest else none
  | [] => none

def isLeapYear (year : Nat) : Bool :=
  year % 4 == 0 && (year % 100 != 0 || year % 400 == 0)

def daysIn (year month : Nat) : Nat :=
  if month = 2 then (if isLeapYear year then 29 else 28)
  else if month = 4 || month = 6 || month = 9 || month = 11 then 30
  else 31

/-- A date at the start of a list; answers the rest. -/
def date? (cs : List Char) : Option (List Char) := do
  let (year, cs) <- fixed? 4 cs
  let cs <- mark? '-' cs
  let (month, cs) <- fixed? 2 cs
  let cs <- mark? '-' cs
  let (day, cs) <- fixed? 2 cs
  if 1 <= month && month <= 12 && 1 <= day && day <= daysIn year month then some cs else none

def hourMinute? (cs : List Char) : Option (List Char) := do
  let (hour, cs) <- fixed? 2 cs
  let cs <- mark? ':' cs
  let (minute, cs) <- fixed? 2 cs
  if hour <= 23 && minute <= 59 then some cs else none

/-- A time of day at the start of a list; answers the rest. -/
def time? (cs : List Char) : Option (List Char) := do
  let cs <- hourMinute? cs
  let cs <- mark? ':' cs
  let (second, cs) <- fixed? 2 cs
  if 60 < second then none
  else
    match cs with
    | '.' :: rest =>
        if rest.head?.any Char.isDigit then some (rest.dropWhile Char.isDigit) else none
    | rest => some rest

/-- Whether a list is empty or the offset of a time zone. -/
def isOffset : List Char -> Bool
  | [] => true
  | ['Z'] => true
  | ['z'] => true
  | '+' :: rest => (hourMinute? rest).any List.isEmpty
  | '-' :: rest => (hourMinute? rest).any List.isEmpty
  | _ => false

/-- Whether a word is a date, a time of day, or both with or without an offset. -/
def isMoment (word : List Char) : Bool :=
  match date? word with
  | some [] => true
  | some (c :: rest) =>
      (c == 'T' || c == 't' || c == ' ') && (time? rest).any isOffset
  | none => (time? word).any List.isEmpty

/-!
# Words
-/

def ofWord? (word : List Char) : Option Toml :=
  if word = "true".toList then some (bool true)
  else if word = "false".toList then some (bool false)
  else if isMoment word then some (moment (String.ofList word))
  else
    match integer? word, endless? word, decimal? word with
    | some n, _, _ => some (int n)
    | _, some x, _ => some (real x)
    | _, _, some x => some (real x)
    | _, _, _ => none

end Toml
end Workflow
