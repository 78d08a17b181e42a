import Workflow.Json.Record
import Workflow.Layout.Basic

/-!
# Layouts in JSON
-/

namespace Workflow

open Json

/-- A length is read from a number of either kind. -/
def length? (v : Json) : Option Float :=
  (double? v).map fun x => Float.ofBits x.bits

/-- A length that is not finite has no number. -/
def ofLength (x : Float) : Json :=
  if x.isFinite then real ⟨x.toBits⟩ else null

namespace Size

def fields : List String :=
  ["width", "height"]

def ofJsonWith? (surplus : Surplus) (v : Json) : Option (Size Float) := do
  let ms <- recordWith? surplus fields v
  let width <- required ms "width" length?
  let height <- required ms "height" length?
  return { width, height }

def ofJson? : Json -> Option (Size Float) :=
  ofJsonWith? .refused

def toJson (s : Size Float) : Json :=
  obj [("width", ofLength s.width), ("height", ofLength s.height)]

end Size

namespace Box

def toJson (b : Box Float) : Json :=
  obj
    [("position", obj [("x", ofLength b.x), ("y", ofLength b.y)]),
     ("size", b.size.toJson)]

end Box

namespace LayoutSettings

def fields : List String :=
  ["spacing", "margin_x", "margin_top", "margin_bottom", "default_block_size", "marker_size"]

def ofJsonWith? (surplus : Surplus) (v : Json) : Option (LayoutSettings Float) := do
  let d := standard
  let size? := Size.ofJsonWith? surplus
  let ms <- recordWith? surplus fields v
  let spacing <- defaulted ms "spacing" d.spacing length?
  let marginX <- defaulted ms "margin_x" d.marginX length?
  let marginTop <- defaulted ms "margin_top" d.marginTop length?
  let marginBottom <- defaulted ms "margin_bottom" d.marginBottom length?
  let blockSize <- defaulted ms "default_block_size" d.blockSize size?
  let markerSize <- defaulted ms "marker_size" d.markerSize size?
  return { spacing, marginX, marginTop, marginBottom, blockSize, markerSize }

def ofJson? : Json -> Option (LayoutSettings Float) :=
  ofJsonWith? .refused

end LayoutSettings

namespace Layout

def toJson (l : Layout Float) : Json :=
  obj
    [("nodes", obj (l.boxes.entries.map fun e => (e.1, e.2.toJson))),
     ("hidden", arr (l.hidden.map str)),
     ("width", ofLength l.size.width),
     ("height", ofLength l.size.height)]

end Layout
end Workflow
