import Workflow.Json.Reader
import Workflow.Layout.Json

/-!
# Measured sizes

A text of measured sizes is an object with a size for each label.  It is read from what
is written and not through a value: a size with one of its lengths given twice is
refused, and a member that is no length may be anything that the grammar allows.
-/

namespace Workflow

open Json

/-- A written length is a number in the range of doubles. -/
def writtenLength? : Written -> Option Float
  | .number n => n.value?.bind length?
  | _ => none

/-- The length with a key that is there just once. -/
def onlyLength? (key : String) (members : List (String × Written)) : Option Float :=
  match members.filter fun m => m.1 == key with
  | [(_, v)] => writtenLength? v
  | _ => none

namespace Size

/-- A size is an object, or an array of its two lengths. -/
def ofWritten? : Written -> Option (Size Float)
  | .arr [w, h] => do
      let width <- writtenLength? w
      let height <- writtenLength? h
      return { width, height }
  | v => do
      let members <- v.members?
      let width <- onlyLength? "width" members
      let height <- onlyLength? "height" members
      return { width, height }

end Size

/-- The measured sizes in a text by their labels; the last of several sizes for one
label counts. -/
def measuredSizes? (text : String) : Option (List (String × Size Float)) := do
  let members <- (<- written? text).members?
  members.mapM fun (label, v) => (Size.ofWritten? v).map fun size => (label, size)

end Workflow
