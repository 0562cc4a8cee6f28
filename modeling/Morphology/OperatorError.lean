import Morphology.Error
import Morphology.Pixel.Basic

/-!
Why an operator refuses its arguments.
-/

namespace Morphology

inductive OperatorError (α : Type) where
  | grid (cause : GridError)
  | shapeMismatch (marker mask : List Nat)
  | preconditionViolation (coords : List Nat) (marker mask : α)
  | negativeHeight (height : α)
  | radiusTooLarge (radius : Nat)

def OperatorError.message {α : Type} [Pixel α] : OperatorError α → String
  | grid cause => "core error: " ++ cause.message
  | shapeMismatch marker mask =>
      "shape mismatch: marker " ++ bracketed marker ++ " vs mask " ++ bracketed mask
  | preconditionViolation coords marker mask =>
      "marker " ++ Pixel.text marker ++ " violates mask " ++ Pixel.text mask
        ++ " at " ++ bracketed coords
  | negativeHeight height =>
      "invalid parameters: height must be non-negative, got " ++ Pixel.text height
  | radiusTooLarge radius => "invalid parameters: box radius " ++ radius.repr ++ " too large"

end Morphology
