import Morphology.Pixel.Basic

/-!
Integer samples: the integers between two bounds, with arithmetic that stops at the bounds. The
fixed-width integer formats are the ranges of one width.
-/

namespace Morphology

/-- Bounds with room for zero and one. -/
structure IntRange where
  lo : Int
  hi : Int
  lo_le : lo ≤ 0
  le_hi : 1 ≤ hi

namespace IntRange

theorem two_le_shift {bits : Nat} (wide : 1 ≤ bits) : 2 ≤ 1 <<< bits := by
  have : 2 ^ 1 ≤ 2 ^ bits := Nat.pow_le_pow_right (by decide) wide
  rwa [Nat.one_shiftLeft]

def unsigned (bits : Nat) (wide : 1 ≤ bits) : IntRange where
  lo := 0
  hi := (1 <<< bits : Nat) - 1
  lo_le := Int.le_refl 0
  le_hi := by
    have := two_le_shift wide
    omega

def signed (bits : Nat) (wide : 2 ≤ bits) : IntRange where
  lo := -(1 <<< (bits - 1) : Nat)
  hi := (1 <<< (bits - 1) : Nat) - 1
  lo_le := Int.neg_nonpos_of_nonneg (Int.natCast_nonneg _)
  le_hi := by
    have : 2 ≤ 1 <<< (bits - 1) := two_le_shift (by omega)
    omega

def u8 : IntRange := unsigned 8 (by decide)
def u16 : IntRange := unsigned 16 (by decide)
def u32 : IntRange := unsigned 32 (by decide)
def u64 : IntRange := unsigned 64 (by decide)
def i8 : IntRange := signed 8 (by decide)
def i16 : IntRange := signed 16 (by decide)
def i32 : IntRange := signed 32 (by decide)
def i64 : IntRange := signed 64 (by decide)

end IntRange

structure Sample (r : IntRange) where
  val : Int
  lo_le : r.lo ≤ val
  le_hi : val ≤ r.hi
deriving DecidableEq

namespace Sample

variable {r : IntRange}

/-- The sample nearest to an integer. -/
def nearest (r : IntRange) (x : Int) : Sample r where
  val := max r.lo (min r.hi x)
  lo_le := Int.le_max_left _ _
  le_hi := by
    have := r.lo_le
    have := r.le_hi
    omega

def ofInt? (r : IntRange) (x : Int) : Option (Sample r) :=
  if h : r.lo ≤ x ∧ x ≤ r.hi then some ⟨x, h.1, h.2⟩ else none

instance : Pixel (Sample r) where
  rank a := some a.val
  minValue := nearest r r.lo
  maxValue := nearest r r.hi
  zero := nearest r 0
  one := nearest r 1
  add a b := nearest r (a.val + b.val)
  sub a b := nearest r (a.val - b.val)
  text a := toString a.val

@[ext] theorem ext {a b : Sample r} (same : a.val = b.val) : a = b := by
  cases a
  cases b
  simpa using same

theorem nearest_val_of_bounded {x : Int} (low : r.lo ≤ x) (high : x ≤ r.hi) :
    (nearest r x).val = x := by
  simp only [nearest]
  omega

@[simp] theorem rank_eq (a : Sample r) : Pixel.rank a = some a.val := rfl

theorem ordered (a : Sample r) : Pixel.Ordered a := rfl

@[simp] theorem minValue_val : (Pixel.minValue : Sample r).val = r.lo := by
  have := r.lo_le
  have := r.le_hi
  exact nearest_val_of_bounded (Int.le_refl _) (by omega)

@[simp] theorem maxValue_val : (Pixel.maxValue : Sample r).val = r.hi := by
  have := r.lo_le
  have := r.le_hi
  exact nearest_val_of_bounded (by omega) (Int.le_refl _)

@[simp] theorem zero_val : (Pixel.zero : Sample r).val = 0 := by
  have := r.lo_le
  have := r.le_hi
  exact nearest_val_of_bounded (by omega) (by omega)

@[simp] theorem one_val : (Pixel.one : Sample r).val = 1 := by
  have := r.lo_le
  have := r.le_hi
  exact nearest_val_of_bounded (by omega) (by omega)

theorem add_val (a b : Sample r) :
    (Pixel.add a b).val = max r.lo (min r.hi (a.val + b.val)) := rfl

theorem sub_val (a b : Sample r) :
    (Pixel.sub a b).val = max r.lo (min r.hi (a.val - b.val)) := rfl

end Sample

end Morphology
