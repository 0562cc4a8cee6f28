import Morphology.Proofs.Binary.Arithmetic
import Morphology.Proofs.Extrema.Height
import Morphology.Proofs.Propagation.Unordered

/-! Suppression of binary numbers by a height. The height ∞ makes NaN of ∞, and no marker holds an
infinite number: even the height zero brings it down to the last finite one. -/

namespace Morphology

variable {f : BinaryFormat}

/-- The term that moves values against a kind by a height. -/
def Kind.retreat (kind : Kind) (height : Binary f) : Binary f :=
  match kind with
  | dilation => height.neg
  | erosion => height

namespace Grid

variable {g : Grid (Binary f)} {height : Binary f}

theorem get_shiftedMarker_binary (g : Grid (Binary f)) (kind : Kind) (height : Binary f)
    (p : Fin g.shape.len) :
    (g.shiftedMarker height kind).get p =
      Binary.finite (Binary.add (g.data.get p) (kind.retreat height)) := by
  cases kind with
  | dilation => exact g.get_shiftedMarker_dilation height p
  | erosion => exact g.get_shiftedMarker_erosion height p

/-- A height is a number, and negative only as a zero. -/
theorem exists_number_of_checkHeight (h : checkHeight height = .ok ()) :
    ∃ negative magnitude, height = .number negative magnitude ∧
      (negative = true → magnitude = 0) := by
  have hle : Pixel.le Pixel.zero height = true := by
    by_contra hnot
    rw [checkHeight, if_neg hnot] at h
    cases h
  cases height with
  | nan => cases hle
  | number negative magnitude =>
      have hzero : Pixel.rank (Pixel.zero : Binary f) = some 0 := rfl
      rw [Pixel.le_eq_decide hzero (Binary.rank_number negative magnitude), decide_eq_true_iff]
        at hle
      refine ⟨negative, magnitude, rfl, ?_⟩
      rintro rfl
      rw [if_pos rfl] at hle
      apply Fin.ext
      rw [Fin.val_zero]
      omega

/-- Only an infinite height below an infinite number leaves no number. -/
theorem add_retreat_eq_nan_iff (kind : Kind) {a : Binary f} (ha : a ≠ .nan)
    (h : checkHeight height = .ok ()) :
    Binary.add a (kind.retreat height) = .nan ↔
      a = .infinite (!kind.backward) ∧ height = .infinite false := by
  obtain ⟨t, b, rfl, hsign⟩ := exists_number_of_checkHeight h
  cases a with
  | nan => exact absurd rfl ha
  | number s m =>
      have hretreat : kind.retreat (Binary.number t b) = .number (t.xor kind.backward) b := by
        cases kind <;> cases t <;> rfl
      rw [hretreat, Binary.add_eq_nan_iff, Binary.infinite, Binary.infinite, Binary.number.injEq,
        Binary.number.injEq, Fin.ext_iff, Fin.ext_iff, Fin.val_last]
      constructor
      · rintro ⟨hm, hb, hs⟩
        have ht : t = false := by
          cases t with
          | false => rfl
          | true =>
              rw [hsign rfl] at hb
              exact absurd hb f.infinity_pos.ne
        rw [ht, Bool.false_xor] at hs
        exact ⟨⟨Bool.eq_not.mpr hs, hm⟩, ht, hb⟩
      · rintro ⟨⟨rfl, hm⟩, rfl, hb⟩
        exact ⟨hm, hb, by simp⟩

theorem shiftedMarker_get_eq_nan_iff (kind : Kind) (hnan : ∀ p, g.data.get p ≠ .nan)
    (h : checkHeight height = .ok ()) (p : Fin g.shape.len) :
    (g.shiftedMarker height kind).get p = .nan ↔
      g.data.get p = .infinite (!kind.backward) ∧ height = .infinite false := by
  rw [get_shiftedMarker_binary, Binary.finite_eq_nan_iff, add_retreat_eq_nan_iff kind (hnan p) h]

theorem exists_retreat_eq_zero (kind : Kind) (h : Pixel.eq height Pixel.zero = true) :
    ∃ negative, kind.retreat height = .number negative 0 := by
  cases height with
  | nan => cases h
  | number negative magnitude =>
      have hzero : Pixel.rank (Pixel.zero : Binary f) = some 0 := rfl
      rw [Pixel.eq_eq_decide (Binary.rank_number negative magnitude) hzero, decide_eq_true_iff] at h
      have hmagnitude : magnitude = 0 := by
        apply Fin.ext
        rw [Fin.val_zero]
        split at h <;> omega
      rw [hmagnitude]
      cases kind with
      | dilation => exact ⟨!negative, rfl⟩
      | erosion => exact ⟨negative, rfl⟩

theorem shiftedMarker_zero_spec (kind : Kind) (hnan : ∀ p, g.data.get p ≠ .nan)
    (hzero : Pixel.eq height Pixel.zero = true) (p : Fin g.shape.len) :
    Bounded ((g.shiftedMarker height kind).get p) ∧
      (Bounded (g.data.get p) →
        levels kind (g.shiftedMarker height kind) p = levels kind g.data p) := by
  obtain ⟨negative, hterm⟩ := exists_retreat_eq_zero kind hzero
  have hrank := Binary.rank_add_zero (g.data.get p) negative
  have hordered : Pixel.Ordered (Binary.add (g.data.get p) (.number negative 0)) := by
    rw [Pixel.Ordered, hrank]
    exact Binary.ordered_iff.mpr (hnan p)
  have hlevel : kind.level (Binary.add (g.data.get p) (.number negative 0)) =
      kind.level (g.data.get p) := by
    cases kind <;> simp only [Kind.level, hrank]
  rw [levels, get_shiftedMarker_binary, hterm]
  refine ⟨Binary.bounded_finite (Binary.ordered_iff.mp hordered), fun hbounded => ?_⟩
  rw [Binary.finite_of_bounded (hbounded.of_level_eq hordered hlevel)]
  exact hlevel

/-- Without a number are exactly the elements that started without one, and all others lie on the
right side of the grid. -/
theorem suppressed_binary_spec (kind : Kind) (connectivity : Connectivity)
    (hnan : ∀ p, g.data.get p ≠ .nan) (h : checkHeight height = .ok ()) (p : Fin g.shape.len) :
    ((g.suppressed kind height connectivity).get p = .nan ↔
        g.data.get p = .infinite (!kind.backward) ∧ height = .infinite false) ∧
      (kind.respects ((g.suppressed kind height connectivity).get p) (g.data.get p) = true ↔
        (g.suppressed kind height connectivity).get p ≠ .nan) := by
  have hgrid := allOrdered_binary_iff.mpr hnan
  have hupheld : Upheld kind g.data (g.shiftedMarker height kind) Set.univ
      (g.suppressed kind height connectivity) :=
    upheld_propagate (Shape.follows_schedule g.len_lt connectivity) kind hgrid _
  have hsame : (g.suppressed kind height connectivity).get p = .nan ↔
      (g.shiftedMarker height kind).get p = .nan := by
    constructor
    · intro hresult
      by_contra hstart
      exact Binary.ordered_iff.mp (hupheld.ordered p (Binary.ordered_iff.mpr hstart)) hresult
    · intro hstart
      rw [hupheld.unordered p fun hordered => Binary.ordered_iff.mp hordered hstart]
      exact hstart
  refine ⟨hsame.trans (shiftedMarker_get_eq_nan_iff kind hnan h p), ?_⟩
  constructor
  · exact fun hrespects => Binary.ordered_iff.mp (Kind.ordered_of_respects hrespects).1
  · intro hresult
    have hstart := Binary.ordered_iff.mpr (hsame.not.mp hresult)
    rw [Kind.respects_iff (Binary.ordered_iff.mpr hresult) (hgrid p)]
    exact hupheld.below p (Set.mem_univ p) hstart

theorem suppressed_zero_binary_iff (kind : Kind) (connectivity : Connectivity)
    (hnan : ∀ p, g.data.get p ≠ .nan) (hzero : Pixel.eq height Pixel.zero = true)
    (p : Fin g.shape.len) :
    Pixel.eq ((g.suppressed kind height connectivity).get p) (g.data.get p) = true ↔
      g.data.get p ≠ .infinite (!kind.backward) := by
  have hgrid := allOrdered_binary_iff.mpr hnan
  have hmarker := shiftedMarker_zero_spec kind hnan hzero
  obtain ⟨hordered, hlevel⟩ : AllOrdered (g.suppressed kind height connectivity) ∧
      ∀ t p, t ≤ levels kind (g.suppressed kind height connectivity) p ↔ _ :=
    propagate_schedule_spec kind connectivity hgrid fun p => (hmarker p).1.ordered
  have hbelow : levels kind (g.suppressed kind height connectivity) p ≤ levels kind g.data p :=
    ((hlevel _ p).mp le_rfl).le_mask
  rw [Kind.eq_iff kind (hordered p) (hgrid p)]
  rcases Binary.bounded_or_eq_infinite (hnan p) with hbounded | ⟨negative, hinfinite⟩
  · have hreached := (hlevel _ p).mpr (.source ((hmarker p).2 hbounded).ge le_rfl)
    refine iff_of_true (le_antisymm hbelow hreached) fun hinfinite => ?_
    exact Binary.not_bounded_infinite _ (hinfinite ▸ hbounded)
  · by_cases hside : negative = kind.backward
    · have hlowest : levels kind g.data p = -(f.infinity : Int) := by
        rw [levels, hinfinite, Binary.level_infinite, if_pos hside]
      have hlow := Binary.neg_infinity_le_level kind ((g.suppressed kind height connectivity).get p)
      rw [← hlowest] at hlow
      refine iff_of_true (le_antisymm hbelow hlow) ?_
      rw [hinfinite, hside]
      simp [Binary.infinite]
    · rw [Bool.eq_not.mpr hside] at hinfinite
      refine iff_of_false ?_ (not_not_intro hinfinite)
      intro hsame
      -- Every marker value is finite, so none of them gets as far as this element.
      obtain ⟨q, hq, _⟩ := reached_iff_exists_linked.mp ((hlevel _ p).mp hsame.ge)
      rw [levels, hinfinite, Binary.level_infinite, if_neg (Bool.not_ne_self _)] at hq
      exact (Binary.level_lt_infinity kind (hmarker q).1).not_ge hq

/-! ## Both transforms -/

/-- Under an accepted height, suppressed peaks lie no higher than the grid, save that an infinite
height leaves no number of a positive infinity; and the height zero changes nothing but positive
infinities. The same holds of basins and negative infinities. -/
theorem hMaxima_hMinima_binary (g : Grid (Binary f)) (connectivity : Connectivity)
    (height : Binary f) (hnan : ∀ p, g.data.get p ≠ .nan)
    (hheight : checkHeight height = .ok ()) :
    (∃ low : Vector (Binary f) g.shape.len,
      g.hMaxima height connectivity = .ok (g.withData low) ∧
        ∀ p, (low.get p = .nan ↔ g.data.get p = .infinite false ∧ height = .infinite false) ∧
          (Pixel.le (low.get p) (g.data.get p) = true ↔ low.get p ≠ .nan) ∧
          (Pixel.eq height Pixel.zero = true →
            (Pixel.eq (low.get p) (g.data.get p) = true ↔ g.data.get p ≠ .infinite false))) ∧
    (∃ high : Vector (Binary f) g.shape.len,
      g.hMinima height connectivity = .ok (g.withData high) ∧
        ∀ p, (high.get p = .nan ↔ g.data.get p = .infinite true ∧ height = .infinite false) ∧
          (Pixel.le (g.data.get p) (high.get p) = true ↔ high.get p ≠ .nan) ∧
          (Pixel.eq height Pixel.zero = true →
            (Pixel.eq (high.get p) (g.data.get p) = true ↔ g.data.get p ≠ .infinite true))) := by
  have hspec (kind : Kind) (p : Fin g.shape.len) :=
    suppressed_binary_spec kind connectivity hnan hheight p
  refine ⟨⟨g.suppressed .dilation height connectivity, ?_, fun p => ?_⟩,
    ⟨g.suppressed .erosion height connectivity, ?_, fun p => ?_⟩⟩
  · exact restoredFrom_shifted g .dilation connectivity hheight
  · exact ⟨(hspec .dilation p).1, (hspec .dilation p).2, fun hzero =>
      suppressed_zero_binary_iff .dilation connectivity hnan hzero p⟩
  · exact restoredFrom_shifted g .erosion connectivity hheight
  · exact ⟨(hspec .erosion p).1, (hspec .erosion p).2, fun hzero =>
      suppressed_zero_binary_iff .erosion connectivity hnan hzero p⟩

/-- One element, positive infinity. -/
def spire : Grid (Binary .single) where
  shape := ⟨[1], by decide, by decide, by decide⟩
  len_lt := by decide
  data := #v[Binary.infinite false]

theorem hMaxima_spire_binary :
    (∀ p, spire.data.get p ≠ .nan) ∧ checkHeight (Pixel.zero : Binary .single) = .ok () ∧
      ∃ low : Vector (Binary .single) spire.shape.len,
        spire.hMaxima Pixel.zero .face = .ok (spire.withData low) ∧
          ∀ p, (low.get p = .nan ↔
              spire.data.get p = .infinite false ∧
                (Pixel.zero : Binary .single) = .infinite false) ∧
            (Pixel.le (low.get p) (spire.data.get p) = true ↔ low.get p ≠ .nan) ∧
            (Pixel.eq (Pixel.zero : Binary .single) Pixel.zero = true →
              (Pixel.eq (low.get p) (spire.data.get p) = true ↔
                spire.data.get p ≠ .infinite false)) :=
  have hnan : ∀ p, spire.data.get p ≠ .nan := by decide +kernel
  ⟨hnan, rfl, (hMaxima_hMinima_binary spire .face Pixel.zero hnan rfl).1⟩

/-- From the one element ∞ the height 0 makes the greatest finite number, and the height ∞ makes
NaN. -/
theorem hMaxima_spire_not_kept :
    (∀ p, spire.data.get p ≠ .nan) ∧
      (checkHeight (Pixel.zero : Binary .single) = .ok () ∧
        ∃ low : Vector (Binary .single) spire.shape.len,
          spire.hMaxima Pixel.zero .face = .ok (spire.withData low) ∧
            ∃ p, Pixel.eq (low.get p) (spire.data.get p) = false) ∧
      checkHeight (Binary.infinite false : Binary .single) = .ok () ∧
        ∃ low : Vector (Binary .single) spire.shape.len,
          spire.hMaxima (.infinite false) .face = .ok (spire.withData low) ∧
            ∃ p, low.get p = .nan :=
  ⟨by decide +kernel, ⟨rfl, _, rfl, ⟨0, by decide⟩, by decide +kernel⟩, rfl, _, rfl,
    ⟨0, by decide⟩, by decide +kernel⟩

end Grid

end Morphology
