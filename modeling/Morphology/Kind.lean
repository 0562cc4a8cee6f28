import Morphology.Pixel.Basic

/-!
The two dual directions of propagation: a dilation raises values under a mask, an erosion lowers
them above it.
-/

namespace Morphology

inductive Kind where
  | dilation
  | erosion
deriving DecidableEq

namespace Kind

def opposite : Kind → Kind
  | dilation => erosion
  | erosion => dilation

variable {α : Type} [Pixel α]

/-- The value that lies further in the direction of propagation; of two equal ones the first. -/
def combine : Kind → α → α → α
  | dilation => Pixel.maxOf
  | erosion => Pixel.minOf

/-- A value cut at its mask. -/
def clamp : Kind → α → α → α
  | dilation => Pixel.minOf
  | erosion => Pixel.maxOf

/-- Whether propagation leads from the first value to the second. -/
def precedes : Kind → α → α → Bool
  | dilation, a, b => Pixel.lt a b
  | erosion, a, b => Pixel.lt b a

/-- Whether a marker value lies on the right side of its mask. -/
def respects : Kind → α → α → Bool
  | dilation, marker, mask => Pixel.le marker mask
  | erosion, marker, mask => Pixel.le mask marker

/-- The value from which no propagation starts. -/
def identity : Kind → α
  | dilation => Pixel.minValue
  | erosion => Pixel.maxValue

end Kind

end Morphology
