/-!
Why a grid or a shape cannot be made, read or written.
-/

namespace Morphology

/-- Sizes and coordinates in brackets. -/
def bracketed (values : List Nat) : String :=
  "[" ++ String.intercalate ", " (values.map Nat.repr) ++ "]"

inductive GridError where
  | invalidDimension (dims : List Nat)
  | dataLengthMismatch (dims : List Nat) (expected actual : Nat)
  | indexOutOfBounds (coords dims : List Nat)
  | shapeMismatch (expected actual : List Nat)
  | unevenRows (length first : Nat)
  /-- No memory holds so many elements. -/
  | tooLarge (dims : List Nat)
deriving DecidableEq

def GridError.message : GridError → String
  | invalidDimension dims => "invalid grid dimensions: " ++ bracketed dims
  | dataLengthMismatch dims expected actual =>
      "data length " ++ actual.repr ++ " does not match shape " ++ bracketed dims
        ++ " (" ++ expected.repr ++ " elements)"
  | indexOutOfBounds coords dims =>
      "coordinates " ++ bracketed coords ++ " out of bounds for shape " ++ bracketed dims
  | shapeMismatch expected actual =>
      "shape mismatch: " ++ bracketed expected ++ " vs " ++ bracketed actual
  | unevenRows length first =>
      "invalid parameter: row length " ++ length.repr
        ++ " differs from first row length " ++ first.repr
  | tooLarge dims => "too many elements for shape " ++ bracketed dims

end Morphology
