import Morphology.Grid.Basic
import Morphology.OperatorError
import Morphology.Propagation

/-!
Reconstruction of a mask from a marker: values propagate from the marker as far as the mask lets
them.
-/

namespace Morphology

structure Options where
  kind : Kind
  connectivity : Connectivity
  /-- Whether a marker on the wrong side of its mask is refused. -/
  check : Bool
deriving DecidableEq

namespace Options

def ofKind (kind : Kind) : Options := ⟨kind, .face, true⟩

def dilation : Options := ofKind .dilation

def erosion : Options := ofKind .erosion

def default : Options := dilation

def withConnectivity (o : Options) (connectivity : Connectivity) : Options :=
  { o with connectivity }

def withFullyConnected (o : Options) (fullyConnected : Bool) : Options :=
  o.withConnectivity (Connectivity.ofFullyConnected fullyConnected)

def withPreconditionCheck (o : Options) (check : Bool) : Options :=
  { o with check }

end Options

namespace Grid

variable {α : Type} [Pixel α]

/-- The values of a mask, laid out like its marker. -/
def maskFor (marker mask : Grid α) : Except (OperatorError α) (Vector α marker.shape.len) :=
  if same : marker.shape = mask.shape then .ok (mask.data.cast (by rw [same]))
  else .error (.shapeMismatch marker.dims mask.dims)

/-- The first element, in row-major order, on the wrong side of its mask. -/
def violation? (marker : Grid α) (mask : Vector α marker.shape.len) (kind : Kind) :
    Option (Fin marker.shape.len) :=
  (List.finRange marker.shape.len).find? fun i => !kind.respects (marker.data.get i) (mask.get i)

def validateMarker (marker mask : Grid α) (kind : Kind) : Except (OperatorError α) Unit := do
  let values ← marker.maskFor mask
  match marker.violation? values kind with
  | none => pure ()
  | some i =>
      throw (.preconditionViolation (marker.shape.coordsOf i) (marker.data.get i) (values.get i))

/-! ## Reconstruction -/

def reconstructWithStats (marker mask : Grid α) (o : Options) :
    Except (OperatorError α) (Grid α × Stats) := do
  if o.check then marker.validateMarker mask o.kind
  let values ← marker.maskFor mask
  let (data, stats) := propagate o.kind (marker.shape.schedule o.connectivity) values marker.data
  return ({ marker with data }, stats)

/-- The marker afterwards with the counts; a refused marker stays as it was. -/
def reconstructInPlace (marker mask : Grid α) (o : Options) :
    Grid α × Except (OperatorError α) Stats :=
  match marker.reconstructWithStats mask o with
  | .ok (result, stats) => (result, .ok stats)
  | .error e => (marker, .error e)

def reconstruct (marker mask : Grid α) (o : Options) : Except (OperatorError α) (Grid α) :=
  match marker.reconstructInPlace mask o with
  | (result, .ok _) => .ok result
  | (_, .error e) => .error e

def reconstructByDilation (marker mask : Grid α) (connectivity : Connectivity) :
    Except (OperatorError α) (Grid α) :=
  marker.reconstruct mask (Options.dilation.withConnectivity connectivity)

def reconstructByErosion (marker mask : Grid α) (connectivity : Connectivity) :
    Except (OperatorError α) (Grid α) :=
  marker.reconstruct mask (Options.erosion.withConnectivity connectivity)

end Grid

end Morphology
