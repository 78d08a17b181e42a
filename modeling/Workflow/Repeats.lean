/-!
# Repeated elements
-/

namespace Workflow

/-- The elements of a list that occur in it before, or among those given as seen. -/
def repeats [BEq α] (xs : List α) (seen : List α := []) : List α :=
  match xs with
  | [] => []
  | x :: rest => if seen.contains x then x :: repeats rest seen else repeats rest (x :: seen)

end Workflow
