import Morphology.Proofs.Level

/-! Binary numbers on the line of levels. The identity of a kind is the last finite number, so one
number lies below it: the infinite one. -/

namespace Morphology

namespace BinaryFormat

theorem one_lt_infinity (f : BinaryFormat) : 1 < f.infinity := by
  cases f <;> decide

end BinaryFormat

variable {f : BinaryFormat} {a : Binary f}

namespace Kind

/-- The sign of the numbers against which a kind propagates. -/
def backward : Kind → Bool
  | dilation => true
  | erosion => false

theorem identity_binary (kind : Kind) :
    (kind.identity : Binary f) = Binary.largest kind.backward := by
  cases kind <;> rfl

theorem level_number (kind : Kind) (negative : Bool) (magnitude : Fin (f.infinity + 1)) :
    kind.level (Binary.number negative magnitude) =
      if negative = kind.backward then -(magnitude : Int) else magnitude := by
  cases kind <;> cases negative <;> simp [level, backward]

theorem ordered_identity_binary (kind : Kind) : Pixel.Ordered (kind.identity : Binary f) := by
  rw [identity_binary]
  rfl

theorem level_identity_binary (kind : Kind) :
    kind.level (kind.identity : Binary f) = 1 - (f.infinity : Int) := by
  have hpos := f.one_lt_infinity
  rw [identity_binary, Binary.largest, level_number, if_pos rfl]
  change -((f.infinity - 1 : Nat) : Int) = _
  omega

end Kind

namespace Binary

def infinite (negative : Bool) : Binary f :=
  number negative (Fin.last _)

theorem level_infinite (kind : Kind) (negative : Bool) :
    kind.level (infinite negative : Binary f) =
      if negative = kind.backward then -(f.infinity : Int) else f.infinity :=
  kind.level_number negative _

theorem neg_infinity_le_level (kind : Kind) (a : Binary f) :
    -(f.infinity : Int) ≤ kind.level a := by
  cases a with
  | nan => cases kind <;> simp [Kind.level]
  | number negative magnitude =>
      rw [Kind.level_number]
      split <;> omega

theorem level_le_identity_iff (kind : Kind) (ha : a ≠ nan)
    (hlow : -(f.infinity : Int) < kind.level a) :
    kind.level a ≤ kind.level (kind.identity : Binary f) ↔ a = kind.identity := by
  have hpos := f.one_lt_infinity
  rw [Kind.level_identity_binary, Kind.identity_binary, largest]
  cases a with
  | nan => exact absurd rfl ha
  | number negative magnitude =>
      rw [Kind.level_number] at hlow ⊢
      rw [number.injEq, Fin.ext_iff]
      split at hlow
      · next hsign =>
          simp only [hsign, if_true, true_and]
          omega
      · next hsign =>
          simp only [hsign, if_false, false_and, iff_false]
          omega

theorem bounded_or_eq_infinite (ha : a ≠ nan) : Bounded a ∨ ∃ negative, a = infinite negative := by
  cases a with
  | nan => exact absurd rfl ha
  | number negative magnitude =>
      rw [bounded_number_iff]
      rcases Nat.lt_or_ge magnitude.val f.infinity with hlt | hge
      · exact .inl hlt
      · have hlast : magnitude = Fin.last _ := Fin.ext (Nat.le_antisymm (Fin.is_le _) hge)
        exact .inr ⟨negative, by rw [hlast]; rfl⟩

theorem not_bounded_infinite (negative : Bool) : ¬ Bounded (infinite negative : Binary f) :=
  fun h => (bounded_number_iff.mp h).ne rfl

theorem level_lt_infinity (kind : Kind) (ha : Bounded a) : kind.level a < f.infinity := by
  have hlow := ha.level_identity_le kind.opposite
  rw [Kind.level_identity_binary, Kind.level_opposite] at hlow
  omega

end Binary

theorem allOrdered_binary_iff {n : Nat} {v : Vector (Binary f) n} :
    AllOrdered v ↔ ∀ p, v.get p ≠ .nan :=
  forall_congr' fun _ => Binary.ordered_iff

end Morphology
