import Morphology.Grid.Basic
import Morphology.Kind
import Morphology.OperatorError

/-!
Erosion and dilation by a box, one axis at a time. Along a line the extrema of all windows of one
width come from running extrema that start anew at every multiple of the width: a window meets at
most one such start, so it is the end of one block and the beginning of the next.
-/

namespace Morphology

variable {α : Type} [Pixel α]

/-- The extremum of each block up to each position. -/
def extremaUpTo (kind : Kind) (width : Nat) : List α → List α
  | [] => []
  | x :: xs => x :: go 1 x xs
where
  go (position : Nat) (previous : α) : List α → List α
    | [] => []
    | x :: xs =>
        let value := if position % width = 0 then x else kind.combine previous x
        value :: go (position + 1) value xs

/-- The extremum of each block from each position on. -/
def extremaFrom (kind : Kind) (width : Nat) (line : List α) : List α :=
  go 0 line
where
  go (position : Nat) : List α → List α
    | [] => []
    | x :: xs =>
        match go (position + 1) xs with
        | [] => [x]
        | next :: rest =>
            let value := if (position + 1) % width = 0 then x else kind.combine next x
            value :: next :: rest

/-- The extremum of each window of `2 * radius + 1` elements; beyond its ends a line holds values
from which nothing propagates. -/
def filterLine (kind : Kind) (radius : Nat) (line : List α) : List α :=
  let margin := List.replicate radius (kind.identity : α)
  let padded := margin ++ line ++ margin
  let width := 2 * radius + 1
  List.zipWith kind.combine (extremaFrom kind width padded)
    ((extremaUpTo kind width padded).drop (width - 1))

/-! ## Lines of a grid -/

variable {n : Nat}

def readLine (data : Vector α n) (start stride extent : Nat) : List α :=
  (List.range extent).filterMap fun k => data[start + k * stride]?

def writeLine (data : Vector α n) (start stride : Nat) (line : List α) : Vector α n :=
  line.zipIdx.foldl (fun data (value, k) => data.setIfInBounds (start + k * stride) value) data

/-- A window wider than the line sees the whole line. -/
def filterAxis (kind : Kind) (radius : Nat) (data : Vector α n) (axis : Nat × Nat) : Vector α n :=
  let (extent, stride) := axis
  if extent = 1 then data
  else
    let starts := (List.range n).filter fun index => index / stride % extent = 0
    let filterFrom (data : Vector α n) (start : Nat) : Vector α n :=
      writeLine data start stride
        (filterLine kind (min radius (extent - 1)) (readLine data start stride extent))
    starts.foldl filterFrom data

/-- The largest radius whose width is a signed word. -/
def maxRadius : Nat := (Word.half - 1) / 2

namespace Grid

/-- The extremum over the box of a radius around each element, as far as it lies inside. -/
def filterBox (g : Grid α) (radius : Nat) (kind : Kind) : Except (OperatorError α) (Grid α) :=
  if maxRadius < radius then .error (.radiusTooLarge radius)
  else if radius = 0 then .ok g
  else
    let axes := g.shape.dims.zip g.shape.strides
    .ok { g with data := axes.foldl (filterAxis kind radius) g.data }

def erodeBox (g : Grid α) (radius : Nat) : Except (OperatorError α) (Grid α) :=
  g.filterBox radius .erosion

def dilateBox (g : Grid α) (radius : Nat) : Except (OperatorError α) (Grid α) :=
  g.filterBox radius .dilation

end Grid

end Morphology
