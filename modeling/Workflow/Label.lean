/-!
# Labels

Fresh labels have the form of a stem followed by a number.  The number is the least
one, counted from one, whose label is not taken; a batch also counts the labels it
has handed out as taken.
-/

namespace Workflow
namespace Label

def defaultStem : String := "block"

def numbered (stem : String) (n : Nat) : String :=
  s!"{stem}_{n}"

/-- The first free label.  Among one label more than there are taken ones, some label
is free, so the search may stop there. -/
def generate (stem : String) (taken : List String) : String :=
  let numbers := (List.range (taken.length + 1)).map fun i => i + 1
  let free := numbers.find? fun n => !taken.contains (numbered stem n)
  numbered stem (free.getD (taken.length + 1))

structure Batch where
  stem : String
  taken : List String

namespace Batch

def allocate (b : Batch) : String × Batch :=
  let label := generate b.stem b.taken
  (label, { b with taken := label :: b.taken })

/-- The labels of several allocations, and the batch after them. -/
def allocateMany : Nat -> Batch -> List String × Batch
  | 0, b => ([], b)
  | n + 1, b =>
      let (label, b) := b.allocate
      let (labels, b) := allocateMany n b
      (label :: labels, b)

def isTaken (b : Batch) (label : String) : Bool :=
  b.taken.contains label

end Batch
end Label
end Workflow
