import Workflow.Number.Double
import Workflow.Table

/-!
# JSON values

A number written without point or exponent stays an integer as long as it fits
sixty-four bits; every other number is a double.  The members of an object are a
list, so that a document can be written in the order its fields are declared in;
the canonical form of a value sorts the members by key and keeps the last of
several with one key.
-/

namespace Workflow

inductive Json where
  | null
  | bool (b : Bool)
  | int (n : Int)
  | real (x : Number.Double)
  | str (s : String)
  | arr (items : List Json)
  | obj (members : List (String × Json))
  deriving Repr, Inhabited

namespace Json

/-!
# Equality

Two values are equal when they have the same shape, with numbers compared by
value inside each of the two kinds of number.
-/

mutual

def agrees : Json -> Json -> Bool
  | null, null => true
  | bool a, bool b => a == b
  | int a, int b => a == b
  | real a, real b => a == b
  | str a, str b => a == b
  | arr a, arr b => agreesItems a b
  | obj a, obj b => agreesMembers a b
  | _, _ => false

def agreesItems : List Json -> List Json -> Bool
  | [], [] => true
  | a :: as, b :: bs => agrees a b && agreesItems as bs
  | _, _ => false

def agreesMembers : List (String × Json) -> List (String × Json) -> Bool
  | [], [] => true
  | (k, a) :: as, (l, b) :: bs => k == l && agrees a b && agreesMembers as bs
  | _, _ => false

end

instance : BEq Json := ⟨agrees⟩

/-!
# Canonical form
-/

mutual

def canonical : Json -> Json
  | arr items => arr (canonicalItems items)
  | obj members => obj (sortEntries (canonicalMembers members))
  | v => v

def canonicalItems : List Json -> List Json
  | [] => []
  | v :: rest => canonical v :: canonicalItems rest

def canonicalMembers : List (String × Json) -> List (String × Json)
  | [] => []
  | (k, v) :: rest => (k, canonical v) :: canonicalMembers rest

end

/-!
# Members and depth
-/

def get? (key : String) : Json -> Option Json
  | obj members => members.lookup key
  | _ => none

/-- Gives a member its value, at the place of its key when the key is new. -/
def setMember (key : String) (value : Json) (members : List (String × Json)) :
    List (String × Json) :=
  if members.any fun m => m.1 == key then
    members.map fun m => if m.1 == key then (m.1, value) else m
  else insertEntry key value members

def eraseMember (key : String) (members : List (String × Json)) :
    List (String × Json) :=
  members.filter fun m => m.1 != key

mutual

/-- The number of arrays and objects that are open at once in the written value. -/
def depth : Json -> Nat
  | arr items => depthItems items + 1
  | obj members => depthMembers members + 1
  | _ => 0

def depthItems : List Json -> Nat
  | [] => 0
  | v :: rest => max (depth v) (depthItems rest)

def depthMembers : List (String × Json) -> Nat
  | [] => 0
  | (_, v) :: rest => max (depth v) (depthMembers rest)

end

/-- The integers that a document keeps as integers. -/
def fitsInteger (n : Int) : Bool :=
  -Int.pow 2 63 <= n && n < Int.pow 2 64

end Json
end Workflow
