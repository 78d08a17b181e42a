import Workflow.Json.Value
import Workflow.Number.Scaling

/-!
# Numerals in JSON

A numeral keeps the parts of a number as it is written.  It stands for an integer when
it has neither point nor exponent and fits sixty-four bits; otherwise it stands for a
double, and for no number at all when it is too large for one.
-/

namespace Workflow
namespace Json

def digitValue (c : Char) : Nat :=
  c.toNat - 48

def decimalValue (digits : List Char) : Nat :=
  digits.foldl (fun n c => 10 * n + digitValue c) 0

/-- A written number.  The digits of the fraction are empty when there is no point. -/
structure Numeral where
  negative : Bool
  whole : List Char
  fraction : List Char
  exponent : Option Int
  deriving DecidableEq, Repr

namespace Numeral

/-!
# Grammar
-/

/-- An optional sign and at least one digit, after the mark of an exponent. -/
def exponent? (cs : List Char) : Option Int :=
  let digits :=
    match cs with
    | '-' :: rest => rest
    | '+' :: rest => rest
    | rest => rest
  if digits.isEmpty || !digits.all Char.isDigit then none
  else if cs.head? = some '-' then some (-(decimalValue digits : Int))
  else some (decimalValue digits : Int)

/-- What follows the whole part: the digits of the fraction and the exponent. -/
def tail? (cs : List Char) : Option (List Char × Option Int) :=
  let fraction :=
    match cs with
    | '.' :: rest => rest.takeWhile Char.isDigit
    | _ => []
  let rest :=
    match cs with
    | '.' :: rest => rest.dropWhile Char.isDigit
    | rest => rest
  if cs.head? = some '.' && fraction.isEmpty then none
  else
    match rest with
    | [] => some (fraction, none)
    | c :: e =>
        if c == 'e' || c == 'E' then (exponent? e).map fun n => (fraction, some n)
        else none

/-- A whole part of several digits does not start with a zero. -/
def ofChars? (cs : List Char) : Option Numeral :=
  let negative := cs.head? = some '-'
  let unsigned := if negative then cs.drop 1 else cs
  let whole := unsigned.takeWhile Char.isDigit
  if whole.isEmpty || (whole.head? = some '0' && whole.length != 1) then none
  else
    (tail? (unsigned.dropWhile Char.isDigit)).map fun (fraction, exponent) =>
      { negative, whole, fraction, exponent }

/-!
# Numbers
-/

/-- The integer a numeral stands for.  The minus sign before a zero is kept by making
it a double. -/
def int? (n : Numeral) : Option Int :=
  let m : Int := decimalValue n.whole
  let value := if n.negative then -m else m
  if n.fraction.isEmpty && n.exponent.isNone && fitsInteger value &&
      !(n.negative && m == 0) then some value
  else none

def double? (n : Numeral) : Option Number.Double :=
  Number.Double.ofScaled? n.negative
    (.ofDigits (n.whole.map digitValue) (n.fraction.map digitValue) (n.exponent.getD 0))

def value? (n : Numeral) : Option Json :=
  match n.int? with
  | some m => some (int m)
  | none => n.double?.map real

end Numeral

end Json
end Workflow
