import Mathlib.Data.Nat.Log
import Morphology.Proofs.Binary.Levels

/-! Arithmetic of binary numbers where no rounding takes place: what a magnitude is worth is rounded
back to it, so a zero changes no number, and only opposite infinities have no sum. -/

namespace Morphology.Binary

variable {f : BinaryFormat}

theorem halfEven_shiftLeft (x k : Nat) : halfEven (x <<< k) k = x := by
  have hpos : 0 < 2 ^ k := Nat.two_pow_pos k
  have hmod : x * 2 ^ k % 2 ^ k = 0 := Nat.mul_mod_left x (2 ^ k)
  have hdiv : x * 2 ^ k / 2 ^ k = x := Nat.mul_div_left x hpos
  simp only [halfEven, Nat.shiftLeft_eq, Nat.one_mul, hmod, hdiv]
  rw [if_neg (by omega)]

/-- Up to the second leading bit every number of units is its own magnitude. -/
theorem ofUnits_of_lt {x : Nat} (hx : x < 2 * 1 <<< f.fractionBits) :
    (ofUnits f x).val = min x f.infinity := by
  have hshift : x.log2 - f.fractionBits = 0 := by
    rcases Nat.eq_zero_or_pos x with rfl | hpos
    · exact Nat.zero_sub _
    · rw [Nat.shiftLeft_eq, Nat.one_mul, ← Nat.pow_succ', ← Nat.log2_lt hpos.ne'] at hx
      omega
  have hexact : halfEven x 0 = x := halfEven_shiftLeft x 0
  simp only [ofUnits, hshift, hexact, Nat.zero_shiftLeft, Nat.zero_add]

/-- From there on the exponent counts the places by which the digits are shifted. -/
theorem ofUnits_shiftLeft {x k : Nat} (hlow : 1 <<< f.fractionBits ≤ x)
    (hhigh : x < 2 * 1 <<< f.fractionBits) :
    (ofUnits f (x <<< k)).val = min (k <<< f.fractionBits + x) f.infinity := by
  rw [Nat.shiftLeft_eq, Nat.one_mul] at hlow hhigh
  have hpos : 0 < 2 ^ k := Nat.two_pow_pos k
  have hlog : (x <<< k).log2 = f.fractionBits + k := by
    have hx : 0 < x := (Nat.two_pow_pos _).trans_le hlow
    rw [Nat.shiftLeft_eq, Nat.log2_eq_iff (Nat.mul_pos hx hpos).ne']
    constructor
    · rw [Nat.pow_add]
      exact Nat.mul_le_mul_right _ hlow
    · rw [Nat.add_right_comm, Nat.pow_add, Nat.pow_succ']
      exact Nat.mul_lt_mul_of_pos_right hhigh hpos
  have hshift : (x <<< k).log2 - f.fractionBits = k := by omega
  simp only [ofUnits, hshift, halfEven_shiftLeft]

theorem ofUnits_units (m : Fin (f.infinity + 1)) : ofUnits f (units f m) = m := by
  have hm := m.isLt
  apply Fin.ext
  rw [units]
  split
  · next hsmall =>
      rw [ofUnits_of_lt hsmall]
      omega
  · next hlarge =>
      have hpos : 0 < 1 <<< f.fractionBits := by
        rw [Nat.shiftLeft_eq, Nat.one_mul]
        exact Nat.two_pow_pos _
      have hrest := Nat.mod_lt m.val hpos
      have hquotient : 2 ≤ m.val / 1 <<< f.fractionBits :=
        (Nat.le_div_iff_mul_le hpos).mpr (not_lt.mp hlarge)
      have hsplit : (m.val / 1 <<< f.fractionBits - 1) * 1 <<< f.fractionBits +
          (1 <<< f.fractionBits + m.val % 1 <<< f.fractionBits) = m.val := by
        rw [← Nat.add_assoc, ← Nat.succ_mul, Nat.succ_eq_add_one, Nat.sub_add_cancel (by omega)]
        exact Nat.div_add_mod' m.val _
      rw [ofUnits_shiftLeft (by omega) (by omega), Nat.shiftLeft_eq _ f.fractionBits,
        ← Nat.one_mul (2 ^ f.fractionBits), ← Nat.shiftLeft_eq 1, hsplit]
      omega

theorem units_zero : units f 0 = 0 := by
  have hpos : 0 < 2 * 1 <<< f.fractionBits := by
    rw [Nat.shiftLeft_eq, Nat.one_mul, ← Nat.pow_succ']
    exact Nat.two_pow_pos _
  exact if_pos hpos

theorem units_eq_zero_iff {m : Fin (f.infinity + 1)} : units f m = 0 ↔ m = 0 := by
  constructor
  · intro h
    calc
      m = ofUnits f (units f m) := (ofUnits_units m).symm
      _ = ofUnits f (units f (0 : Fin (f.infinity + 1))) := by rw [h, Fin.val_zero, units_zero]
      _ = 0 := ofUnits_units 0
  · rintro rfl
    exact units_zero

theorem rank_add_zero (a : Binary f) (negative : Bool) :
    Pixel.rank (add a (number negative 0)) = Pixel.rank a := by
  have hpos := f.infinity_pos
  cases a with
  | nan => rfl
  | number sign m =>
      have hzero : ((0 : Fin (f.infinity + 1)) : Nat) ≠ f.infinity := by
        rw [Fin.val_zero]
        omega
      have hnone : signedUnits f negative (0 : Fin (f.infinity + 1)) = 0 := by
        simp [signedUnits, units_zero]
      simp only [add, hzero, false_and, if_false, hnone, Int.add_zero]
      split
      · rfl
      · have hmagnitude : (signedUnits f sign m).natAbs = units f m := by
          rw [signedUnits]
          split <;> simp
        rw [hmagnitude, ofUnits_units, rank_number, rank_number, Option.some.injEq]
        by_cases hm : m = 0
        · simp [hm]
        · have hunits : units f m ≠ 0 := fun h => hm (units_eq_zero_iff.mp h)
          cases sign with
          | false => simp [signedUnits, hunits]
          | true => simp [signedUnits, hunits, Nat.pos_of_ne_zero hunits]

theorem add_eq_nan_iff {s t : Bool} {a b : Fin (f.infinity + 1)} :
    add (number s a) (number t b) = nan ↔ a.val = f.infinity ∧ b.val = f.infinity ∧ s ≠ t := by
  simp only [add]
  split
  · next ha => split <;> simp_all
  · next ha => split <;> simp_all

theorem finite_eq_nan_iff {a : Binary f} : finite a = nan ↔ a = nan := by
  cases a with
  | nan => simp [finite]
  | number s m =>
      simp only [finite]
      split <;> simp [largest]

theorem bounded_finite {a : Binary f} (ha : a ≠ nan) : Bounded (finite a) := by
  have hpos := f.infinity_pos
  cases a with
  | nan => exact absurd rfl ha
  | number s m =>
      simp only [finite]
      split
      · exact bounded_number_iff.mpr (by change f.infinity - 1 < f.infinity; omega)
      · exact bounded_number_iff.mpr (by omega)

theorem finite_of_bounded {a : Binary f} (ha : Bounded a) : finite a = a := by
  cases a with
  | nan => rfl
  | number s m => exact if_neg (bounded_number_iff.mp ha).ne

end Morphology.Binary
