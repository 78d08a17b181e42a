import Workflow.Layout.Geometry
import Workflow.Layout.Outline

/-!
# Layout

The nodes of a chain are stacked from top to bottom and centred on the widest one.
A container is as large as its measured size and its body with margins around it
require.
-/

namespace Workflow

/-!
# Settings
-/

/-- The spacing between the nodes of a chain, the margins around the body of a
container, and the sizes of nodes that have not been measured. -/
structure LayoutSettings (α : Type) where
  spacing : α
  marginX : α
  marginTop : α
  marginBottom : α
  blockSize : Size α
  markerSize : Size α

namespace LayoutSettings

def standard : LayoutSettings Float where
  spacing := 40.0
  marginX := 24.0
  marginTop := 60.0
  marginBottom := 24.0
  blockSize := ⟨280.0, 72.0⟩
  markerSize := ⟨24.0, 24.0⟩

end LayoutSettings

/-- The boxes of the nodes that are drawn, the ids of the others, and the extent of the
top level. -/
structure Layout (α : Type) where
  boxes : Table (Box α)
  hidden : List String
  size : Size α

namespace Layout

open Length

variable {α : Type} [Length α]

/-!
# Stacking
-/

def extentOf (s : LayoutSettings α) (members : List (String × Size α)) : Size α where
  width := members.foldl (fun w m => larger w m.2.width) zero
  height :=
    if members.isEmpty then zero
    else sub (members.foldl (fun y m => add y (add m.2.height s.spacing)) zero) s.spacing

/-- Stacks nodes from the height `y` downwards, centred on a width. -/
def stack (s : LayoutSettings α) (width : α) : α -> List (String × Size α) ->
    List (String × Box α)
  | _, [] => []
  | y, (id, size) :: rest =>
      (id, { x := half (sub width size.width), y, size }) ::
      stack s width (add y (add size.height s.spacing)) rest

def stackAll (s : LayoutSettings α) (members : List (String × Size α)) :
    List (String × Box α) :=
  stack s (extentOf s members).width zero members

/-!
# Containers
-/

/-- The size of a container with the measured size and the extent of its body. -/
def enclose (s : LayoutSettings α) (measured body : Size α) : Size α where
  width := larger measured.width (add body.width (add s.marginX s.marginX))
  height := larger measured.height (add (add body.height s.marginTop) s.marginBottom)

/-- Stacks the body of a container inside it. -/
def stackInside (s : LayoutSettings α) (size : Size α) (members : List (String × Size α)) :
    List (String × Box α) :=
  let dx := half (sub size.width (extentOf s members).width)
  (stackAll s members).map fun m => (m.1, m.2.shift dx s.marginTop)

mutual

def sizeOf (s : LayoutSettings α) (measured : String -> Size α) : Outline -> Size α
  | .node id => measured id
  | .container id body => enclose s (measured id) (extentOf s (sizesOf s measured body))

def sizesOf (s : LayoutSettings α) (measured : String -> Size α) :
    List Outline -> List (String × Size α)
  | [] => []
  | o :: rest => (o.id, sizeOf s measured o) :: sizesOf s measured rest

end

mutual

def boxesInside (s : LayoutSettings α) (measured : String -> Size α) :
    Outline -> List (String × Box α)
  | .node _ => []
  | .container id body =>
      let members := sizesOf s measured body
      stackInside s (enclose s (measured id) (extentOf s members)) members ++
      boxesInsideAll s measured body

def boxesInsideAll (s : LayoutSettings α) (measured : String -> Size α) :
    List Outline -> List (String × Box α)
  | [] => []
  | o :: rest => boxesInside s measured o ++ boxesInsideAll s measured rest

end

/-!
# The layout of a graph
-/

/-- The measured size of a node, or the one for its kind of node. -/
def measuredSize (s : LayoutSettings α) (g : Graph) (sizes : Table (Size α)) (id : String) :
    Size α :=
  (sizes.get? id).getD (if (g.block? id).isSome then s.blockSize else s.markerSize)

def ofGraph (s : LayoutSettings α) (g : Graph) (sizes : Table (Size α)) : Layout α :=
  let measured := measuredSize s g sizes
  let forest := g.outline
  let members := sizesOf s measured forest
  let boxes := Table.ofList (stackAll s members ++ boxesInsideAll s measured forest)
  let unplaced := (g.nodes.map Node.id).filter fun id => !boxes.contains id
  { boxes
    hidden := (Table.ofList (unplaced.map fun id => (id, ()))).keys
    size := extentOf s members }

end Layout
end Workflow
