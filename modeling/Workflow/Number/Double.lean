/-!
# Doubles

A finite double is kept as its sixty-four bits, so that equality of numbers in
a document is decidable and nothing here depends on machine arithmetic.  The
module reads a bit pattern as `significand * 2 ^ exponent`, rounds a decimal to
the nearest double, and finds the fewest decimal digits that read back.
-/

namespace Workflow
namespace Number

/-- A double, given by its bit pattern. -/
structure Double where
  bits : UInt64
  deriving DecidableEq, Repr

namespace Double

/-!
# Sign, significand and exponent
-/

def magnitude (d : Double) : Nat :=
  d.bits.toNat % Nat.pow 2 63

def isNegative (d : Double) : Bool :=
  Nat.pow 2 63 <= d.bits.toNat

def isZero (d : Double) : Bool :=
  d.magnitude == 0

/-- The first pattern that no longer stands for a finite number. -/
def infinityBits : Nat :=
  2047 * Nat.pow 2 52

def isFinite (d : Double) : Bool :=
  d.magnitude < infinityBits

def ofMagnitude (negative : Bool) (m : Nat) : Double :=
  ⟨UInt64.ofNat (if negative then Nat.pow 2 63 + m else m)⟩

/-- The value of a finite pattern is `significand * 2 ^ (exponent - 1074)`. -/
def significand (m : Nat) : Nat :=
  if m < Nat.pow 2 52 then m else Nat.pow 2 52 + m % Nat.pow 2 52

def exponent (m : Nat) : Nat :=
  m / Nat.pow 2 52 - 1

/-- Numbers are compared by value, so the two zeros agree. -/
def agrees (a b : Double) : Bool :=
  a.bits == b.bits || (a.isZero && b.isZero)

instance : BEq Double := ⟨agrees⟩

/-!
# Rounding

Every positive ratio lies in one binade, whose grid has the step
`2 ^ (e - 1074)`.  The nearest grid point, ties going to the even one, is
the rounded value; rounding up to the next binade needs no special case,
because the patterns of neighbouring doubles are neighbours.
-/

/-- The quotient rounded to the nearest integer, ties to even. -/
def roundDiv (num den : Nat) : Nat :=
  let q := num / den
  let r := num % den
  if 2 * r < den then q
  else if den < 2 * r then q + 1
  else q + q % 2

/-- The ratio scaled by `2 ^ (1074 - e)`, as a numerator and a denominator. -/
def scaled (num den e : Nat) : Nat × Nat :=
  if e <= 1074 then (num * Nat.pow 2 (1074 - e), den)
  else (num, den * Nat.pow 2 (e - 1074))

/-- The binade exponent of a ratio: the least one at which it has at most 53 bits. -/
def binade (num den : Nat) : Nat :=
  let guess := num.log2 + 1074 - den.log2 - 53
  let (n, d) := scaled num den guess
  if n / d < Nat.pow 2 53 then guess else guess + 1

/-- The magnitude nearest to a ratio; it may lie beyond the finite patterns. -/
def roundRatio (num den : Nat) : Nat :=
  if num = 0 then 0
  else
    let e := binade num den
    let (n, d) := scaled num den e
    e * Nat.pow 2 52 + roundDiv n d

/-- The number of digits of a positive number in base ten, zero for zero. -/
def decimalLength (n : Nat) : Nat :=
  if n = 0 then 0 else (Nat.toDigits 10 n).length

/-- The magnitude nearest to `m * 10 ^ e`.  Values beyond the range of doubles on
either side are settled by their length, before any power is formed. -/
def roundDecimal (m : Nat) (e : Int) : Nat :=
  let top := (decimalLength m : Int) + e
  if m = 0 || top < -330 then 0
  else if 320 < top then infinityBits
  else if 0 <= e then roundRatio (m * Nat.pow 10 e.toNat) 1
  else roundRatio m (Nat.pow 10 (-e).toNat)

/-- The double nearest to a signed decimal, infinite beyond the range of doubles. -/
def ofDecimal (negative : Bool) (m : Nat) (e : Int) : Double :=
  ofMagnitude negative (min (roundDecimal m e) infinityBits)

def ofInt (n : Int) : Double :=
  ofMagnitude (n < 0) (roundRatio n.natAbs 1)

/-!
# Fewest digits

A decimal is a pair of digits and an exponent of ten.  The grid of `k` digits
has two points beside the value; the first `k` for which one of them reads back
gives the text, and of two such points the nearer one is taken.  The exact
decimal of the value always reads back and closes the search.
-/

structure Decimal where
  digits : Nat
  exponent : Int
  deriving DecidableEq, Repr

/-- The exact decimal of `significand * 2 ^ (exponent - 1074)`. -/
def exactDecimal (m : Nat) : Decimal :=
  let n := significand m
  let e := exponent m
  if 1074 <= e then ⟨n * Nat.pow 2 (e - 1074), 0⟩
  else ⟨n * Nat.pow 5 (1074 - e), (e : Int) - 1074⟩

def Decimal.readsBack (m : Nat) (c : Decimal) : Bool :=
  roundDecimal c.digits c.exponent == m

/-- The points beside the exact decimal on the grid of `k` digits, the nearer first. -/
def neighbours (exact : Decimal) (k : Nat) : List Decimal :=
  let drop := decimalLength exact.digits - k
  let step := Nat.pow 10 drop
  let low := exact.digits / step
  let e := exact.exponent + drop
  if exact.digits % step * 2 <= step then [⟨low, e⟩, ⟨low + 1, e⟩]
  else [⟨low + 1, e⟩, ⟨low, e⟩]

/-- Zeros at the end of the digits belong into the exponent. -/
def Decimal.strip : Nat -> Decimal -> Decimal
  | 0, c => c
  | fuel + 1, c =>
      if c.digits != 0 && c.digits % 10 == 0 then
        Decimal.strip fuel ⟨c.digits / 10, c.exponent + 1⟩
      else c

def shortest (m : Nat) : Decimal :=
  if m = 0 then ⟨0, 0⟩
  else
    let exact := exactDecimal m
    let candidates := (List.range 17).flatMap fun k => neighbours exact (k + 1)
    let found := (candidates.find? (Decimal.readsBack m)).getD exact
    found.strip (decimalLength found.digits)

end Double

end Number
end Workflow
