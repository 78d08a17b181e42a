import Workflow.Json.Token

/-!
# Reading JSON

The reader goes over the tokens once and keeps the containers that are open on a
stack.  A container waits on the stack while a value inside it is due.
-/

namespace Workflow
namespace Json

/-- A container in which a value is due; what it holds so far stands last first. -/
inductive Frame where
  | array (items : List Written)
  | object (members : List (List Piece × Written)) (key : List Piece)

inductive Reading where
  | value (stack : List Frame)
  | firstItem (stack : List Frame)
  | afterItem (items : List Written) (stack : List Frame)
  | firstKey (stack : List Frame)
  | nextKey (members : List (List Piece × Written)) (stack : List Frame)
  | colon (members : List (List Piece × Written)) (key : List Piece) (stack : List Frame)
  | afterMember (members : List (List Piece × Written)) (stack : List Frame)
  | finished (v : Written)

namespace Reading

def complete (v : Written) : List Frame -> Reading
  | [] => finished v
  | .array items :: stack => afterItem (v :: items) stack
  | .object members key :: stack => afterMember ((key, v) :: members) stack

def begin? (stack : List Frame) : Token -> Option Reading
  | .scalar v => some (complete v stack)
  | .text pieces => some (complete (.text pieces) stack)
  | .mark '[' => some (firstItem stack)
  | .mark '\x7b' => some (firstKey stack)
  | .mark _ => none

def step : Reading -> Token -> Option Reading
  | value stack, t => begin? stack t
  | firstItem stack, t =>
      match t with
      | .mark ']' => some (complete (.arr []) stack)
      | _ => begin? (.array [] :: stack) t
  | afterItem items stack, t =>
      match t with
      | .mark ',' => some (value (.array items :: stack))
      | .mark ']' => some (complete (.arr items.reverse) stack)
      | _ => none
  | firstKey stack, t =>
      match t with
      | .text key => some (colon [] key stack)
      | .mark '\x7d' => some (complete (.obj []) stack)
      | _ => none
  | nextKey members stack, t =>
      match t with
      | .text key => some (colon members key stack)
      | _ => none
  | colon members key stack, t =>
      match t with
      | .mark ':' => some (value (.object members key :: stack))
      | _ => none
  | afterMember members stack, t =>
      match t with
      | .mark ',' => some (nextKey members stack)
      | .mark '\x7d' => some (complete (.obj members.reverse) stack)
      | _ => none
  | finished _, _ => none

end Reading

/-- The written value that a list of tokens makes up. -/
def ofTokens? (tokens : List Token) : Option Written :=
  match tokens.foldlM Reading.step (.value []) with
  | some (.finished v) => some v
  | _ => none

/-- What a text holds by its grammar. -/
def written? (text : String) : Option Written :=
  (tokens? text.toList).bind ofTokens?

/-- The number of arrays and objects that may be open at once. -/
def maxDepth : Nat := 127

/-- The value written in a text, its members in the order they are written in. -/
def read? (text : String) : Option Json :=
  (written? text).bind (Written.value? maxDepth)

/-- The value written in a text, in canonical form. -/
def parse? (text : String) : Option Json :=
  (read? text).map canonical

end Json
end Workflow
