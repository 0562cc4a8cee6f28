import Morphology.Proofs.Binary.Levels
import Morphology.Proofs.Extrema.Regional

/-! Regional extrema of binary numbers. An infinite number lies below the identity, so a plateau at
the last finite number can have no way out without being the lowest; it is restored all the same. -/

namespace Morphology.Grid

variable {f : BinaryFormat} {g : Grid (Binary f)}

theorem escapes_binary_iff (kind : Kind) (connectivity : Connectivity)
    (hnan : ∀ p, g.data.get p ≠ .nan) (x : Fin g.shape.len) :
    Escapes (g.shape.Adjacent connectivity) (levels kind g.data) x ↔
      ∃ y, g.shape.Adjacent connectivity x y ∧
        kind.precedes (g.data.get x) (g.data.get y) = true := by
  have hordered := allOrdered_binary_iff.mpr hnan
  simp only [Escapes, levels, Kind.precedes_iff (hordered _) (hordered _)]

/-- Marked are the elements whose plateaus have no way out, save those of an uneven grid that hold
the identity itself. -/
theorem regionalExtrema_binary_spec (kind : Kind) (connectivity : Connectivity)
    (hnan : ∀ p, g.data.get p ≠ .nan) :
    ∃ flags : Vector Bool g.shape.len,
      g.regionalExtrema kind connectivity = .ok ⟨g.shape, g.len_lt, flags⟩ ∧
        ∀ p, flags.get p = true ↔
          (∀ x ∈ g.plateau connectivity p, ∀ y, g.shape.Adjacent connectivity x y →
            kind.precedes (g.data.get x) (g.data.get y) = false) ∧
          ((∀ x y, Pixel.eq (g.data.get x) (g.data.get y) = true) ∨
            g.data.get p ≠ kind.identity) := by
  have hordered := allOrdered_binary_iff.mpr hnan
  obtain ⟨flags, hextrema, hflags⟩ :=
    regionalExtrema_spec_of_ordered kind connectivity hordered kind.ordered_identity_binary
  refine ⟨flags, hextrema, fun p => ?_⟩
  have hway (x : Fin g.shape.len) :
      ¬ Escapes (g.shape.Adjacent connectivity) (levels kind g.data) x ↔
        ∀ y, g.shape.Adjacent connectivity x y →
          kind.precedes (g.data.get x) (g.data.get y) = false := by
    simp only [escapes_binary_iff kind connectivity hnan, not_exists, not_and, Bool.not_eq_true]
  rw [hflags, ← forall₂_congr fun x _ => hway x, and_congr_right_iff]
  intro hnone
  by_cases heven : ∀ x y, Pixel.eq (g.data.get x) (g.data.get y) = true
  · exact iff_of_true (.inl heven) (.inl heven)
  · obtain ⟨q, hq⟩ := exists_levels_lt kind connectivity hordered heven hnone
    have hlow : -(f.infinity : Int) < kind.level (g.data.get p) :=
      (Binary.neg_infinity_le_level kind _).trans_lt hq
    rw [or_iff_right heven, or_iff_right heven, ← not_le]
    exact not_congr (Binary.level_le_identity_iff kind (hnan p) hlow)

/-- Of binary numbers, an element is a regional maximum exactly if no element of its plateau has a
higher neighbor, unless the grid is uneven and the plateau lies at the lowest finite number: that
one is no regional maximum even among negative infinities. The same holds of minima and the highest
finite number. -/
theorem regionalExtrema_binary_iff_plateau (g : Grid (Binary f)) (connectivity : Connectivity)
    (hnan : ∀ p, g.data.get p ≠ .nan) :
    (∃ maxima : Vector Bool g.shape.len,
      g.regionalMaxima connectivity = .ok ⟨g.shape, g.len_lt, maxima⟩ ∧
        ∀ p, maxima.get p = true ↔
          (∀ x ∈ g.plateau connectivity p, ∀ y, g.shape.Adjacent connectivity x y →
            Pixel.lt (g.data.get x) (g.data.get y) = false) ∧
          ((∀ x y, Pixel.eq (g.data.get x) (g.data.get y) = true) ∨
            g.data.get p ≠ .largest true)) ∧
    (∃ minima : Vector Bool g.shape.len,
      g.regionalMinima connectivity = .ok ⟨g.shape, g.len_lt, minima⟩ ∧
        ∀ p, minima.get p = true ↔
          (∀ x ∈ g.plateau connectivity p, ∀ y, g.shape.Adjacent connectivity x y →
            Pixel.lt (g.data.get y) (g.data.get x) = false) ∧
          ((∀ x y, Pixel.eq (g.data.get x) (g.data.get y) = true) ∨
            g.data.get p ≠ .largest false)) :=
  ⟨regionalExtrema_binary_spec .dilation connectivity hnan,
    regionalExtrema_binary_spec .erosion connectivity hnan⟩

/-- The highest finite number between two infinities: a basin. -/
def basin : Grid (Binary .single) where
  shape := ⟨[3], by decide, by decide, by decide⟩
  len_lt := by decide
  data := #v[Binary.infinite false, Binary.largest false, Binary.infinite false]

theorem regionalMinima_basin_iff_plateau :
    (∀ p, basin.data.get p ≠ .nan) ∧
      ∃ minima : Vector Bool basin.shape.len,
        basin.regionalMinima .face = .ok ⟨basin.shape, basin.len_lt, minima⟩ ∧
          ∀ p, minima.get p = true ↔
            (∀ x ∈ basin.plateau .face p, ∀ y, basin.shape.Adjacent .face x y →
              Pixel.lt (basin.data.get y) (basin.data.get x) = false) ∧
            ((∀ x y, Pixel.eq (basin.data.get x) (basin.data.get y) = true) ∨
              basin.data.get p ≠ .largest false) :=
  have hnan : ∀ p, basin.data.get p ≠ .nan := by decide +kernel
  ⟨hnan, (regionalExtrema_binary_iff_plateau basin .face hnan).2⟩

/-- Of ∞, m, ∞ with the greatest finite number m no element is marked, although m is lower than both
neighbors. -/
theorem regionalMinima_basin_not_iff_plateau :
    (∀ p, basin.data.get p ≠ .nan) ∧
      ¬ ∃ minima : Vector Bool basin.shape.len,
        basin.regionalMinima .face = .ok ⟨basin.shape, basin.len_lt, minima⟩ ∧
          ∀ p, minima.get p = true ↔
            ∀ x ∈ basin.plateau .face p, ∀ y, basin.shape.Adjacent .face x y →
              Pixel.lt (basin.data.get y) (basin.data.get x) = false := by
  refine ⟨by decide +kernel, ?_⟩
  rintro ⟨minima, hminima, hiff⟩
  have hnone : (basin.regionalMinima .face).toOption.map (fun marks => marks.data.toList) =
      some [false, false, false] := by
    decide +kernel
  have hflags : minima.toList = [false, false, false] := by
    rw [hminima] at hnone
    exact Option.some.inj hnone
  have hmarked : minima.get ⟨1, by decide⟩ = true := by
    rw [hiff]
    intro x hx y _
    have hlowest : ∀ x y : Fin basin.shape.len,
        Pixel.eq (basin.data.get x) (basin.data.get ⟨1, by decide⟩) = true →
          Pixel.lt (basin.data.get y) (basin.data.get x) = false := by
      decide +kernel
    exact hlowest x y hx.mem_right
  have hmem : true ∈ minima.toList := (mem_toList_iff_exists_get minima).mpr ⟨_, hmarked⟩
  rw [hflags] at hmem
  simp at hmem

end Morphology.Grid
