import Workflow.Json.Value

/-!
# Records in JSON

A record is read from the members of an object.  A plain record may also be
given as an array of its fields in the order they are declared in, the last of
them left out; what becomes of further items is up to the format.  A field that
is not required takes its default when its member is missing; an optional field
is also absent when its member is null.  Members that name no field are ignored.
-/

namespace Workflow
namespace Json

abbrev Members := List (String × Json)

variable {α : Type}

def members? : Json -> Option Members
  | obj members => some members
  | _ => none

/-- What becomes of the items of an array beyond the fields of a record. -/
inductive Surplus where
  | refused
  | ignored
  deriving DecidableEq, Repr

/-- The members of a plain record with the given fields. -/
def recordWith? (surplus : Surplus) (fields : List String) : Json -> Option Members
  | obj members => some members
  | arr items =>
      if surplus == .ignored || items.length <= fields.length then some (fields.zip items)
      else none
  | _ => none

/-- The members of a plain record whose array has no items beyond the fields. -/
def record? : List String -> Json -> Option Members :=
  recordWith? .refused

/-- The members of a record whose kind is given by the member `tag`, with that kind.
As an array, the kind comes first. -/
def tagged? (tag : String) (read : Json -> Option α) : Json -> Option (α × Json)
  | obj members => ((members.lookup tag).bind read).map fun a => (a, obj members)
  | arr (v :: fields) => (read v).map fun a => (a, arr fields)
  | _ => none

/-!
# Fields
-/

def required (ms : Members) (key : String) (read : Json -> Option α) : Option α :=
  (ms.lookup key).bind read

def defaulted (ms : Members) (key : String) (value : α) (read : Json -> Option α) :
    Option α :=
  match ms.lookup key with
  | none => some value
  | some v => read v

def optional (ms : Members) (key : String) (read : Json -> Option α) :
    Option (Option α) :=
  match ms.lookup key with
  | none => some none
  | some null => some none
  | some v => (read v).map some

/-!
# Values
-/

def text? : Json -> Option String
  | str s => some s
  | _ => none

def flag? : Json -> Option Bool
  | bool b => some b
  | _ => none

def below? (bound : Nat) : Json -> Option Nat
  | int n => if 0 <= n && n < bound then some n.toNat else none
  | _ => none

def word32? (v : Json) : Option UInt32 :=
  (below? UInt32.size v).map UInt32.ofNat

def word64? (v : Json) : Option UInt64 :=
  (below? UInt64.size v).map UInt64.ofNat

def double? : Json -> Option Number.Double
  | int n => some (Number.Double.ofInt n)
  | real x => some x
  | _ => none

def list? (read : Json -> Option α) : Json -> Option (List α)
  | arr items => items.mapM read
  | _ => none

def texts? : Json -> Option (List String) :=
  list? text?

def any? (v : Json) : Option Json :=
  some v

/-!
# Names
-/

/-- A finite type whose elements are written by name. -/
class Named (α : Type) where
  all : List α
  name : α -> String

def Named.ofName? [Named α] (s : String) : Option α :=
  (Named.all : List α).find? fun a => Named.name a == s

/-- A name stands alone, or as the only key of an object whose value is null. -/
def named? [Named α] : Json -> Option α
  | str s => Named.ofName? s
  | obj [(s, null)] => Named.ofName? s
  | _ => none

/-- In a record whose kind is given by a tag, the value may also be an empty object. -/
def namedInside? [Named α] : Json -> Option α
  | obj [(s, obj [])] => Named.ofName? s
  | v => named? v

def ofName [Named α] (a : α) : Json :=
  str (Named.name a)

/-!
# Writing fields
-/

def ofTexts (xs : List String) : Json :=
  arr (xs.map str)

def ofWord32 (n : UInt32) : Json :=
  int n.toNat

def ofWord64 (n : UInt64) : Json :=
  int n.toNat

/-- The member of an optional field, left out when there is no value. -/
def present (key : String) (write : α -> Json) : Option α -> Members
  | none => []
  | some a => [(key, write a)]

end Json
end Workflow
