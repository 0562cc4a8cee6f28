import Morphology.Binary.Decimal
import Morphology.Pixel.Basic

/-!
Binary numbers as pixel values. Sums and differences stop at the largest finite numbers; the one
value without a rank is the one that is no number.
-/

namespace Morphology.Binary

variable {f : BinaryFormat}

/-- Infinite numbers become the largest finite ones of their sign. -/
def finite : Binary f → Binary f
  | nan => nan
  | number negative magnitude =>
      if magnitude.val = f.infinity then largest negative else number negative magnitude

instance : Pixel (Binary f) where
  rank := rank
  minValue := largest true
  maxValue := largest false
  zero := zero
  one := one f
  add a b := finite (add a b)
  sub a b := finite (sub a b)
  text := Layout.compact.text

@[simp] theorem rank_nan : Pixel.rank (nan : Binary f) = none := rfl

@[simp] theorem rank_number (negative : Bool) (magnitude : Fin (f.infinity + 1)) :
    Pixel.rank (number negative magnitude)
      = some (if negative then -(magnitude : Int) else magnitude) := rfl

theorem ordered_iff {a : Binary f} : Pixel.Ordered a ↔ a ≠ nan := by
  cases a <;> simp [Pixel.Ordered]

end Morphology.Binary
