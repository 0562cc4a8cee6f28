import Morphology.Shape.Basic

/-!
Walks over all positions of a shape. A step counts one up or down, like an odometer whose last
axis turns fastest.
-/

namespace Morphology

namespace Shape

/-- The truth value says that the walk goes on; after the last position it starts again. -/
def advance : List Nat → List Nat → Bool × List Nat
  | d :: ds, c :: cs =>
      match advance ds cs with
      | (true, rest) => (true, c :: rest)
      | (false, rest) => if c + 1 < d then (true, (c + 1) :: rest) else (false, 0 :: rest)
  | _, coords => (false, coords)

/-- The truth value says that the walk goes on; before the first position comes the last. -/
def retreat : List Nat → List Nat → Bool × List Nat
  | d :: ds, c :: cs =>
      match retreat ds cs with
      | (true, rest) => (true, c :: rest)
      | (false, rest) => if 0 < c then (true, (c - 1) :: rest) else (false, (d - 1) :: rest)
  | _, coords => (false, coords)

/-- There is no step from coordinates with too few axes; axes beyond those of the shape stay. -/
def stepForward? (s : Shape) (coords : List Nat) : Option (Bool × List Nat) :=
  if coords.length < s.ndim then none else some (advance s.dims coords)

/-- There is no step from coordinates with too few axes; axes beyond those of the shape stay. -/
def stepBackward? (s : Shape) (coords : List Nat) : Option (Bool × List Nat) :=
  if coords.length < s.ndim then none else some (retreat s.dims coords)

def firstCoords (s : Shape) : List Nat := List.replicate s.ndim 0

def lastCoords (s : Shape) : List Nat := s.dims.map (· - 1)

/-! ## Walks -/

def walk (step : List Nat → Bool × List Nat) : Nat → List Nat → List (List Nat)
  | 0, _ => []
  | n + 1, coords => coords :: walk step n (step coords).2

@[simp] theorem length_walk (step : List Nat → Bool × List Nat) (n : Nat) (coords : List Nat) :
    (walk step n coords).length = n := by
  induction n generalizing coords with
  | zero => rfl
  | succ n ih => simp [walk, ih]

/-- As many positions as there are elements, stepping forward from the first. -/
def raster (s : Shape) : Vector (List Nat) s.len :=
  ⟨(walk (advance s.dims) s.len s.firstCoords).toArray, by simp⟩

/-- As many positions as there are elements, stepping backward from the last. -/
def antiraster (s : Shape) : Vector (List Nat) s.len :=
  ⟨(walk (retreat s.dims) s.len s.lastCoords).toArray, by simp⟩

end Shape

/-- An element of a grid with its position. -/
structure Site (s : Shape) where
  index : Fin s.len
  coords : List Nat

namespace Shape

def site (s : Shape) (index : Fin s.len) : Site s := ⟨index, s.coordsOf index⟩

/-- Indices count up while the positions step forward. -/
def sites (s : Shape) : List (Site s) :=
  List.zipWith Site.mk (List.finRange s.len) s.raster.toList

/-- Indices count down while the positions step backward. -/
def sitesBackward (s : Shape) : List (Site s) :=
  List.zipWith Site.mk (List.finRange s.len).reverse s.antiraster.toList

end Shape

end Morphology
