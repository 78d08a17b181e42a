/-!
# Sizes and boxes

Layout only adds, subtracts, halves and compares lengths, so it is defined for any
type of numbers that can do that.
-/

namespace Workflow

class Length (α : Type) where
  zero : α
  add : α -> α -> α
  sub : α -> α -> α
  half : α -> α
  larger : α -> α -> α

/-- A number wins over an undefined one, and of two equal ones the first is taken. -/
instance : Length Float where
  zero := 0.0
  add a b := a + b
  sub a b := a - b
  half a := a / 2.0
  larger a b := if a.isNaN then b else if a < b then b else a

structure Size (α : Type) where
  width : α
  height : α
  deriving BEq, Repr

/-- A placed node: the distances of its left upper corner from that of the container it
is in, and its size. -/
structure Box (α : Type) where
  x : α
  y : α
  size : Size α
  deriving BEq, Repr

namespace Box

variable {α : Type} [Length α]

def shift (b : Box α) (dx dy : α) : Box α :=
  { b with x := Length.add b.x dx, y := Length.add b.y dy }

end Box
end Workflow
