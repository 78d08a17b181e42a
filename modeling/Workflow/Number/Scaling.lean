import Workflow.Number.Double

/-!
# Decimals by scaling

A decimal is read in two steps.  Its digits are taken into a number of sixty-four bits,
and what does not fit only moves the exponent.  That number is then scaled by a power of
ten, every product and quotient being rounded.  Each step is the best there is, but the
result may be a neighbour of the double that is nearest to the decimal.
-/

namespace Workflow
namespace Number
namespace Double

/-!
# Digits
-/

namespace Decimal

/-- The digits of a decimal stay below this bound while more of them are taken. -/
def capacity : Nat := UInt64.size

/-- Takes the digits before the point.  From the first that does not fit, every digit
counts for its place alone. -/
def takeWhole (c : Decimal) : List Nat -> Decimal
  | [] => c
  | d :: rest =>
      if 10 * c.digits + d < capacity then
        takeWhole ⟨10 * c.digits + d, c.exponent⟩ rest
      else ⟨c.digits, c.exponent + (rest.length + 1)⟩

/-- Takes the digits after the point, up to the first that does not fit. -/
def takeFraction (c : Decimal) : List Nat -> Decimal
  | [] => c
  | d :: rest =>
      if 10 * c.digits + d < capacity then
        takeFraction ⟨10 * c.digits + d, c.exponent - 1⟩ rest
      else c

/-- The decimal with these digits on both sides of the point, times a power of ten. -/
def ofDigits (whole fraction : List Nat) (e : Int) : Decimal :=
  let c := (takeWhole ⟨0, 0⟩ whole).takeFraction fraction
  { c with exponent := c.exponent + e }

end Decimal

/-!
# Products and quotients

Both are the exact result on the values of two magnitudes, rounded once.
-/

def product (a b : Nat) : Nat :=
  roundRatio (significand a * significand b * Nat.pow 2 (exponent a + exponent b))
    (Nat.pow 2 2148)

def quotient (a b : Nat) : Nat :=
  roundRatio (significand a * Nat.pow 2 (exponent a)) (significand b * Nat.pow 2 (exponent b))

def tenPower (n : Nat) : Nat :=
  roundRatio (Nat.pow 10 n) 1

/-!
# Scaling
-/

def greatestPower : Nat := 308

/-- A magnitude times a power of ten, unless it overflows.  A power too small for one
division is divided by in parts. -/
def scale? (m : Nat) (e : Int) : Option Nat :=
  if e.natAbs <= greatestPower then
    if 0 <= e then
      let r := product m (tenPower e.natAbs)
      if r < infinityBits then some r else none
    else some (quotient m (tenPower e.natAbs))
  else if m = 0 then some 0
  else if 0 < e then none
  else scale? (quotient m (tenPower greatestPower)) (e + greatestPower)
termination_by e.natAbs
decreasing_by simp only [greatestPower] at *; omega

/-- The double a signed decimal is read as, unless it overflows. -/
def ofScaled? (negative : Bool) (c : Decimal) : Option Double :=
  (scale? (roundRatio c.digits 1) c.exponent).map (ofMagnitude negative)

end Double
end Number
end Workflow
