import Morphology.Grid.Basic
import Morphology.Pixel.Sample

/-!
Random byte grids. The source of randomness is a parameter: one draw gives a byte up to and
including a bound.
-/

namespace Morphology

abbrev Byte := Sample .u8

namespace Random

variable {m : Type → Type} [Monad m] (byteUpTo : Byte → m Byte)

/-- All elements are drawn before the dimensions are looked at. -/
def grid (dims : List Nat) (levels : Byte) : m (Except GridError (Grid Byte)) := do
  let values ← (List.replicate (Shape.volume dims) levels).mapM byteUpTo
  return Grid.ofList dims values

/-- Each element is drawn up to the element of the mask. -/
def markerBelow (mask : Grid Byte) : m (Grid Byte) := do
  let data ← mask.data.mapM byteUpTo
  return mask.withData data

end Random

end Morphology
