import Morphology.Error
import Morphology.Word

/-!
Shapes of grids with any number of axes, in row-major order: the last axis runs fastest, so linear
indices follow the lexicographic order of coordinates.
-/

namespace Morphology

/-- The number of positions in a box of extents. -/
def Shape.volume : List Nat → Nat
  | [] => 1
  | d :: ds => d * volume ds

/-- The number of elements fits a machine word. -/
structure Shape where
  dims : List Nat
  dims_ne_nil : dims ≠ []
  dims_pos : ∀ d ∈ dims, 0 < d
  volume_lt : Shape.volume dims < Word.modulus
deriving DecidableEq

namespace Shape

def ofDims (dims : List Nat) : Except GridError Shape :=
  if h : dims ≠ [] ∧ (∀ d ∈ dims, 0 < d) ∧ volume dims < Word.modulus then
    .ok ⟨dims, h.1, h.2.1, h.2.2⟩
  else .error (.invalidDimension dims)

def ndim (s : Shape) : Nat := s.dims.length

def len (s : Shape) : Nat := volume s.dims

def isEmpty (s : Shape) : Bool := s.len = 0

/-- How far apart two elements lie that are neighbors along an axis. -/
def suffixVolumes : List Nat → List Nat
  | [] => []
  | _ :: ds => volume ds :: suffixVolumes ds

def strides (s : Shape) : List Nat := suffixVolumes s.dims

/-! ## Coordinates and indices -/

def inside : List Nat → List Nat → Bool
  | [], [] => true
  | c :: cs, d :: ds => c < d && inside cs ds
  | _, _ => false

def contains (s : Shape) (coords : List Nat) : Bool := inside coords s.dims

/-- Terms without a partner are dropped. -/
def dot : List Nat → List Nat → Nat
  | c :: cs, s :: ss => c * s + dot cs ss
  | _, _ => 0

/-- The linear index by the strides alone, whether or not the shape contains the coordinates. -/
def indexOfUnchecked (s : Shape) (coords : List Nat) : Nat := dot coords s.strides

def indexOf? (s : Shape) (coords : List Nat) : Option Nat :=
  if s.contains coords then some (s.indexOfUnchecked coords) else none

def digits : List Nat → Nat → List Nat
  | [], _ => []
  | s :: ss, index => index / s :: digits ss (index % s)

/-- An index past the end gives a first coordinate past the end. -/
def coordsOf (s : Shape) (index : Nat) : List Nat := digits s.strides index

def touches : List Nat → List Nat → Bool
  | c :: cs, d :: ds => c = 0 || c + 1 = d || touches cs ds
  | _, _ => false

/-- Whether some coordinate is the first or the last of its axis. -/
def isBoundary (s : Shape) (coords : List Nat) : Bool := touches coords s.dims

/-! ## Offsets -/

def signedDot : List Int → List Nat → Int
  | o :: os, s :: ss => o * Word.signed s + signedDot os ss
  | _, _ => 0

/-- What an offset of coordinates adds to a linear index, as a signed word. -/
def linearDelta (s : Shape) (offset : List Int) : Int := Word.wrap (signedDot offset s.strides)

def reaches : List Nat → List Int → List Nat → Bool
  | c :: cs, o :: os, d :: ds =>
      let n := Word.wrap (Word.signed c + o)
      0 ≤ n && n.toNat < d && reaches cs os ds
  | _, _, _ => true

/-- Whether the offset stays inside on every axis; the sums are signed words. -/
def offsetInBounds (s : Shape) (coords : List Nat) (offset : List Int) : Bool :=
  reaches coords offset s.dims

def neighborIndex? (s : Shape) (coords : List Nat) (offset : List Int) : Option Nat :=
  if coords.length ≠ s.ndim ∨ offset.length ≠ s.ndim then none
  else if s.offsetInBounds coords offset then
    some (Word.unsigned (Word.signed (s.indexOfUnchecked coords) + s.linearDelta offset))
  else none

theorem ext_dims {s t : Shape} (same : s.dims = t.dims) : s = t := by
  cases s
  cases t
  simpa using same

theorem len_pos (s : Shape) : 0 < s.len := by
  have positive : ∀ dims : List Nat, (∀ d ∈ dims, 0 < d) → 0 < volume dims := by
    intro dims
    induction dims with
    | nil => simp [volume]
    | cons d ds ih =>
        intro all
        exact Nat.mul_pos (all d (by simp)) (ih fun e he => all e (by simp [he]))
  exact positive s.dims s.dims_pos

theorem length_suffixVolumes (dims : List Nat) :
    (suffixVolumes dims).length = dims.length := by
  induction dims with
  | nil => rfl
  | cons d ds ih => simp [suffixVolumes, ih]

theorem length_digits (strides : List Nat) (index : Nat) :
    (digits strides index).length = strides.length := by
  induction strides generalizing index with
  | nil => rfl
  | cons s ss ih => simp [digits, ih]

theorem length_coordsOf (s : Shape) (index : Nat) : (s.coordsOf index).length = s.ndim := by
  rw [coordsOf, length_digits, strides, length_suffixVolumes, ndim]

end Shape

end Morphology
