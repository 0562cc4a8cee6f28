import Morphology.Box
import Morphology.Reconstruction

/-!
Operators that make a marker of a grid and restore the grid from it: holes and peaks, extrema by
height, regional extrema, opening and closing.
-/

namespace Morphology

/-- The ways in which operators make a marker of the grid that they restore from it. -/
inductive OwnMarker (α : Type) where
  /-- The boundary, for filling holes and grinding peaks. -/
  | boundary
  /-- The grid moved away by a height, for suppression by height. -/
  | shifted (height : α)
  /-- The elements with a way out, for regional extrema. -/
  | escaping
  /-- The grid filtered in the opposite direction, for opening and closing. -/
  | filtered (radius : Nat)

namespace Grid

variable {α : Type} [Pixel α]

/-! ## Markers -/

/-- The grid on its boundary, and inside the value from which nothing propagates. -/
def boundaryMarker (g : Grid α) (kind : Kind) : Vector α g.shape.len :=
  let blank := g.map fun _ => (kind.identity : α)
  (blank.updateBoundary fun coords value =>
    (g.getLinear? (g.shape.indexOfUnchecked coords)).getD value).data

/-- A height is at least zero; what compares with nothing is no height. -/
def checkHeight (height : α) : Except (OperatorError α) Unit :=
  if Pixel.le Pixel.zero height then .ok () else .error (.negativeHeight height)

/-- The grid moved away from its mask by a height, as far as the values go. -/
def shiftedMarker (g : Grid α) (height : α) (kind : Kind) : Vector α g.shape.len :=
  match kind with
  | .dilation => g.data.map (Pixel.sub · height)
  | .erosion => g.data.map (Pixel.add · height)

/-- Whether some neighbor lies further in the direction of the kind. -/
def escapes (g : Grid α) (kind : Kind) (offsets : List Offset) (index : Fin g.shape.len) : Bool :=
  let coords := g.shape.coordsOf index
  offsets.any fun offset =>
    (g.getNeighbor? coords offset.delta).any (kind.precedes (g.data.get index))

def escapeMarker (g : Grid α) (kind : Kind) (connectivity : Connectivity) :
    Vector α g.shape.len :=
  let offsets := neighborOffsets g.shape.ndim connectivity
  Vector.ofFn fun index => if g.escapes kind offsets index then g.data.get index else kind.identity

def ownMarker (g : Grid α) (kind : Kind) (connectivity : Connectivity) :
    OwnMarker α → Except (OperatorError α) (Grid α)
  | .boundary => .ok (g.withData (g.boundaryMarker kind))
  | .shifted height => do
      checkHeight height
      return g.withData (g.shiftedMarker height kind)
  | .escaping => (ofList g.dims (g.escapeMarker kind connectivity).toList).mapError .grid
  | .filtered radius => g.filterBox radius kind.opposite

/-- The operators leave the check of the marker out. -/
def restoredFrom (g : Grid α) (kind : Kind) (connectivity : Connectivity) (check : Bool)
    (source : OwnMarker α) : Except (OperatorError α) (Grid α) := do
  let marker ← g.ownMarker kind connectivity source
  marker.reconstruct g
    (((Options.ofKind kind).withConnectivity connectivity).withPreconditionCheck check)

/-! ## Operators -/

/-- Every basin enclosed by the grid is raised to the level at which it spills. -/
def fillHoles (g : Grid α) (connectivity : Connectivity) : Except (OperatorError α) (Grid α) :=
  g.restoredFrom .erosion connectivity false .boundary

/-- Every peak that no boundary element supports is lowered to its highest pass. -/
def grindPeaks (g : Grid α) (connectivity : Connectivity) : Except (OperatorError α) (Grid α) :=
  g.restoredFrom .dilation connectivity false .boundary

/-- The elements that filling raises. -/
def holeMap (g : Grid α) (connectivity : Connectivity) :
    Except (OperatorError α) (Grid Bool) := do
  let filled ← g.fillHoles connectivity
  (filled.zipWith (fun filled value => Pixel.lt value filled) g).mapError .grid

/-- Peaks that rise by no more than the height above their surroundings are cut off. -/
def hMaxima (g : Grid α) (height : α) (connectivity : Connectivity) :
    Except (OperatorError α) (Grid α) :=
  g.restoredFrom .dilation connectivity false (.shifted height)

/-- Basins that sink by no more than the height below their surroundings are filled. -/
def hMinima (g : Grid α) (height : α) (connectivity : Connectivity) :
    Except (OperatorError α) (Grid α) :=
  g.restoredFrom .erosion connectivity false (.shifted height)

/-- A plateau from which no element escapes is not restored. In a flat grid nothing escapes. -/
def extremaFrom (g : Grid α) (kind : Kind) (connectivity : Connectivity) (check : Bool) :
    Except (OperatorError α) (Grid Bool) :=
  if Pixel.eq g.minValue g.maxValue then .ok (g.map fun _ => true)
  else do
    let restored ← g.restoredFrom kind connectivity check .escaping
    (g.zipWith (fun value restored => !Pixel.eq value restored) restored).mapError .grid

def regionalExtrema (g : Grid α) (kind : Kind) (connectivity : Connectivity) :
    Except (OperatorError α) (Grid Bool) :=
  g.extremaFrom kind connectivity false

def regionalMaxima (g : Grid α) (connectivity : Connectivity) :
    Except (OperatorError α) (Grid Bool) :=
  g.regionalExtrema .dilation connectivity

def regionalMinima (g : Grid α) (connectivity : Connectivity) :
    Except (OperatorError α) (Grid Bool) :=
  g.regionalExtrema .erosion connectivity

/-- Structures that hold no box vanish, and all others keep their shape: an opening for a dilation,
a closing for an erosion. -/
def simplify (g : Grid α) (kind : Kind) (radius : Nat) (connectivity : Connectivity) :
    Except (OperatorError α) (Grid α) :=
  g.restoredFrom kind connectivity false (.filtered radius)

def openingByReconstruction (g : Grid α) (radius : Nat) (connectivity : Connectivity) :
    Except (OperatorError α) (Grid α) :=
  g.simplify .dilation radius connectivity

def closingByReconstruction (g : Grid α) (radius : Nat) (connectivity : Connectivity) :
    Except (OperatorError α) (Grid α) :=
  g.simplify .erosion radius connectivity

end Grid

end Morphology
