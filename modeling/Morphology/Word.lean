/-!
Machine words of 64 bits. Sizes and coordinates are natural numbers; offsets are signed words, and
a word is read as signed or unsigned by its residue.
-/

namespace Morphology.Word

/-- The number of words. -/
def modulus : Nat := 0x10000000000000000

/-- The number of signed words that are not negative. -/
def half : Nat := 0x8000000000000000

/-- Sums and products of signed words keep the low 64 bits. -/
def wrap (x : Int) : Int := Int.bmod x modulus

/-- A size or coordinate read as a signed word. -/
def signed (n : Nat) : Int := wrap n

/-- A signed word read as unsigned. -/
def unsigned (x : Int) : Nat := (x % modulus).toNat

/-- A power, by squaring. Of the exponent only the low `width` bits count, and products keep their
low 64 bits. -/
def power (base : Nat) : Nat → Nat → Nat
  | 0, _ => 1
  | width + 1, exponent =>
      let root := power base width (exponent / 2)
      root * root * (if exponent % 2 = 1 then base else 1) % modulus

theorem wrap_of_bounded {x : Int} (low : -half ≤ x) (high : x < half) : wrap x = x := by
  simp only [half] at low high
  exact Int.bmod_eq_of_le (by simp only [modulus]; omega) (by simp only [modulus]; omega)

theorem signed_of_lt {n : Nat} (small : n < half) : signed n = n :=
  wrap_of_bounded (by omega) (by omega)

theorem unsigned_of_bounded {x : Int} (low : 0 ≤ x) (high : x < modulus) :
    unsigned x = x.toNat := by
  rw [unsigned, Int.emod_eq_of_lt low high]

theorem unsigned_natCast {n : Nat} (small : n < modulus) : unsigned n = n := by
  rw [unsigned_of_bounded (by omega) (by omega)]
  simp

theorem power_eq (base width exponent : Nat) :
    power base width exponent = Nat.pow base (exponent % (1 <<< width)) % modulus := by
  induction width generalizing exponent with
  | zero => simp [power, Nat.mod_one, modulus]
  | succ width ih =>
      have split : exponent % (1 <<< (width + 1))
          = 2 * (exponent / 2 % (1 <<< width)) + exponent % 2 := by
        rw [Nat.one_shiftLeft, Nat.one_shiftLeft, Nat.pow_succ', Nat.mod_mul]
        omega
      have bit : (if exponent % 2 = 1 then base else 1) = base ^ (exponent % 2) := by
        rcases Nat.mod_two_eq_zero_or_one exponent with even | odd
        · simp [even]
        · simp [odd]
      simp only [power, ih, Nat.pow_eq, split, bit]
      rw [Nat.pow_add, Nat.two_mul, Nat.pow_add, Nat.mul_mod,
        ← Nat.mul_mod (base ^ _) (base ^ _) modulus, ← Nat.mul_mod]

end Morphology.Word
