import Morphology.Shape.Raster

/-!
Neighbors of an element: those across a face, or all that touch it. The causal ones come earlier
in row-major order, the anticausal ones later.
-/

namespace Morphology

inductive Connectivity where
  | face
  | full
deriving DecidableEq

namespace Connectivity

def ofFullyConnected (fullyConnected : Bool) : Connectivity :=
  if fullyConnected then full else face

/-- The number of neighbors away from the boundary, as a word. The power of three takes an
exponent of 32 bits. -/
def neighborCount : Connectivity → Nat → Nat
  | face, ndim => 2 * ndim % Word.modulus
  | full, ndim => Word.power 3 32 ndim - 1

/-- A step across a face changes one coordinate. -/
def keeps (connectivity : Connectivity) (delta : List Int) : Bool :=
  let changed := delta.countP (· ≠ 0)
  match connectivity with
  | face => changed = 1
  | full => 0 < changed

end Connectivity

/-! ## Offsets -/

/-- A change of coordinates and what it adds to the linear index. -/
structure Offset where
  delta : List Int
  linear : Int
deriving DecidableEq

namespace Offset

def ofDelta (delta : List Int) : Offset := ⟨delta, 0⟩

/-- The first coordinate that changes decreases. -/
def precedesInRasterOrder (offset : Offset) : Bool :=
  (offset.delta.find? (· ≠ 0)).any (· < 0)

end Offset

/-- The steps by at most one on each axis, in lexicographic order. -/
def unitSteps : Nat → List (List Int)
  | 0 => [[]]
  | n + 1 => [-1, 0, 1].flatMap fun d => (unitSteps n).map (d :: ·)

/-- The steps to the neighbors, in lexicographic order. Memory is taken to hold the list: in full,
from 37 axes on, the `3 ^ n - 1` offsets do not fit in any allocation. -/
def neighborOffsets (ndim : Nat) (connectivity : Connectivity) : List Offset :=
  ((unitSteps ndim).filter connectivity.keeps).map Offset.ofDelta

inductive ScanDirection where
  | forward
  | backward
deriving DecidableEq

/-- The offsets that a scan has passed and those that lie ahead. -/
def partition (offsets : List Offset) : ScanDirection → List Offset × List Offset
  | .forward => offsets.partition Offset.precedesInRasterOrder
  | .backward => (offsets.partition Offset.precedesInRasterOrder).swap

/-! ## Neighborhoods of a shape -/

structure Neighborhood where
  full : List Offset
  causal : List Offset
  anticausal : List Offset
deriving DecidableEq

namespace Shape

def neighborhood (s : Shape) (connectivity : Connectivity) : Neighborhood :=
  let full := (neighborOffsets s.ndim connectivity).map fun offset =>
    { offset with linear := s.linearDelta offset.delta }
  let (causal, anticausal) := partition full .forward
  ⟨full, causal, anticausal⟩

/-- The element at a linear distance. -/
def shift? (s : Shape) (index : Fin s.len) (offset : Offset) : Option (Fin s.len) :=
  let shifted := Word.unsigned (Word.signed index + offset.linear)
  if h : shifted < s.len then some ⟨shifted, h⟩ else none

/-- The neighbors of an element in the order of the offsets. Away from the boundary all of them
are inside. -/
def neighborsOf (s : Shape) (offsets : List Offset) (site : Site s) : List (Fin s.len) :=
  let interior := !s.isBoundary site.coords
  (offsets.filter fun offset => interior || s.offsetInBounds site.coords offset.delta).filterMap
    (s.shift? site.index)

end Shape

end Morphology
