import Morphology.Proofs.Extrema.Height
import Morphology.Proofs.Extrema.Regional

/-! The regional maxima after suppression by a height are the components of the peaks that rise by
more than the height above every pass to a higher element, each cut off at the height below its
peak. Peaks that would be cut off beyond the end of the range leave everything on one level. -/

namespace Morphology

section Peaks

variable {n : Nat} {adjacent : Fin n → Fin n → Prop} {value low : Fin n → Int}
  {height floor : Int} {p m x : Fin n}

/-- An element belongs to a peak if it is joined to it without going farther below it than the
height, and nothing higher is joined to it in this way. -/
@[mk_iff] structure UnderPeak (adjacent : Fin n → Fin n → Prop) (value : Fin n → Int) (height : Int)
    (p m : Fin n) : Prop where
  joined : Linked adjacent {x | value m - height ≤ value x} p m
  highest : ∀ x, Linked adjacent {y | value m - height ≤ value y} p x → value x ≤ value m

theorem UnderPeak.of_linked (h : UnderPeak adjacent value height p m)
    (hsymm : ∀ x y, adjacent x y → adjacent y x)
    (hx : Linked adjacent {y | value m - height ≤ value y} p x) :
    UnderPeak adjacent value height x m :=
  ⟨(hx.symm hsymm).trans h.joined, fun y hy => h.highest y (hx.trans hy)⟩

namespace IsLowered

theorem low_eq_of_underPeak (h : IsLowered adjacent value height floor low)
    (hpeak : UnderPeak adjacent value height p m) : low p = max floor (value m - height) := by
  have hrises : Rises adjacent value height (value m - height) p := ⟨m, hpeak.joined, by omega⟩
  have hbelow : value m - height ≤ low p := (h.le_iff _ p).mpr (.inr hrises)
  have hfloor := h.floor_le_low p
  by_contra hne
  have habove : max floor (value m - height) < low p := by omega
  obtain ⟨x, hlinked, hx⟩ := (h.le_iff_rises (by omega : floor < low p) p).mp le_rfl
  have hinside : Linked adjacent {y | value m - height ≤ value y} p x :=
    hlinked.mono fun y hy => (by omega : value m - height ≤ low p).trans hy
  have hhighest := hpeak.highest x hinside
  omega

/-- If the component at the level of an element rises no more than the height above it, the cut
below its highest element lets the same elements pass as the level: on the floor, all of them. -/
theorem above_cut_eq (h : IsLowered adjacent value height floor low)
    (hhighest : ∀ x, Linked adjacent {y | low p ≤ value y} p x → value x ≤ value m)
    (hupper : value m ≤ low p + height) :
    {x | value m - height ≤ value x} = {x | low p ≤ value x} := by
  rcases (h.le_iff _ p).mp le_rfl with hfloor | hrises
  · have hall (x : Fin n) : low p ≤ value x := hfloor.trans (h.floor_le x)
    have hcut : value m - height ≤ low p := by omega
    ext x
    exact iff_of_true (hcut.trans (hall x)) (hall x)
  · obtain ⟨x, hlinked, hx⟩ := hrises
    have hlower := hhighest x hlinked
    have hcut : value m - height = low p := by omega
    rw [hcut]

variable (h : IsLowered adjacent value height floor low)
  (hsymm : ∀ x y, adjacent x y → adjacent y x)

include h hsymm

theorem not_plateauEscapes_of_underPeak (hpeak : UnderPeak adjacent value height p m) :
    ¬ PlateauEscapes adjacent low (low p) p := by
  have hlevel := h.low_eq_of_underPeak hpeak
  -- Whatever lies on the level of the plateau and touches the component belongs to it.
  have hclosed {x y : Fin n} (hx : Linked adjacent {z | value m - height ≤ value z} p x)
      (hxy : adjacent x y) (hy : low p ≤ low y) :
      Linked adjacent {z | value m - height ≤ value z} p y := by
    have hvalue := h.low_le y
    have hmem : value m - height ≤ value y := by omega
    exact .step hx hxy hmem
  intro hescapes
  obtain ⟨x, hx, y, hxy, hlt⟩ := hescapes
  have hxp : low x = low p := hx.mem_right
  have hinside : Linked adjacent {z | value m - height ≤ value z} p x :=
    hx.mem_of_closed (T := {z | Linked adjacent {y | value m - height ≤ value y} p z})
      (.self hpeak.joined.mem_left) fun z hz w hw hzw => hclosed hz hzw (Eq.ge hw)
  have houtside := hclosed hinside hxy (by omega)
  have hylevel := h.low_eq_of_underPeak (hpeak.of_linked hsymm houtside)
  omega

/-! ## A plateau is a peak that was cut off -/

theorem low_le_of_component {x : Fin n} (hx : Linked adjacent {y | low p ≤ value y} p x) :
    low p ≤ low x := by
  rcases (h.le_iff _ p).mp le_rfl with hfloor | hrises
  · exact (h.le_iff _ x).mpr (.inl hfloor)
  · exact h.le_low_of_linked hsymm hrises hx

theorem exists_underPeak (hnone : ¬ PlateauEscapes adjacent low (low p) p) :
    ∃ m, UnderPeak adjacent value height p m := by
  have hp : low p ≤ value p := h.low_le p
  have hlevel {x : Fin n} (hx : Linked adjacent {y | low p ≤ value y} p x) : low x = low p := by
    have hinside : Linked adjacent {y | low p ≤ low y} p x :=
      hx.of_component fun y hy => h.low_le_of_component hsymm hy
    exact (linked_plateau hnone hinside).mem_right
  -- The peak is the highest element of the component at the level of the plateau.
  obtain ⟨m, hm, hhighest⟩ := exists_highest adjacent value (S := {x | low p ≤ value x}) hp
  have hupper : value m ≤ low p + height := hlevel hm ▸ h.value_le m
  have hset := h.above_cut_eq hhighest hupper
  refine ⟨m, ?_, ?_⟩
  · rw [hset]
    exact hm
  · rw [hset]
    exact hhighest

theorem not_plateauEscapes_iff :
    ¬ PlateauEscapes adjacent low (low p) p ↔ ∃ m, UnderPeak adjacent value height p m := by
  constructor
  · exact h.exists_underPeak hsymm
  · intro hpeak
    obtain ⟨m, hm⟩ := hpeak
    exact h.not_plateauEscapes_of_underPeak hsymm hm

end IsLowered

end Peaks

namespace Grid

variable {range : IntRange} {height : Sample range}

theorem regionalExtrema_suppressed (g : Grid (Sample range)) (kind : Kind)
    (connectivity : Connectivity) (h : 0 ≤ height.val) :
    ∃ flags : Vector Bool g.shape.len,
      (g.withData (g.suppressed kind height connectivity)).regionalExtrema kind connectivity =
          .ok ⟨g.shape, g.len_lt, flags⟩ ∧
        ∀ p, flags.get p = true ↔
          ∃ m, UnderPeak (g.shape.Adjacent connectivity) (levels kind g.data) height.val p m := by
  obtain ⟨flags, hextrema, hflags⟩ :=
    regionalExtrema_plateauEscapes (g := g.withData (g.suppressed kind height connectivity)) kind
      connectivity (allBounded_sample _)
  have hlow := isLowered_suppressed g kind connectivity h
  refine ⟨flags, hextrema, fun p => ?_⟩
  rw [← hlow.not_plateauEscapes_iff fun _ _ => Shape.Adjacent.symm]
  exact hflags p

/-- After peaks are suppressed by a height, the regional maxima are the elements for which some peak
is joined to them through elements at most the height below it, none of which is higher than the
peak. The same holds of basins and regional minima. -/
theorem regionalExtrema_iff_dynamic (g : Grid (Sample range)) (connectivity : Connectivity)
    (h : 0 ≤ height.val) :
    (∃ lowered, g.hMaxima height connectivity = .ok (g.withData lowered) ∧
      ∃ maxima : Vector Bool g.shape.len,
        (g.withData lowered).regionalMaxima connectivity = .ok ⟨g.shape, g.len_lt, maxima⟩ ∧
          ∀ p, maxima.get p = true ↔ ∃ m,
            Linked (g.shape.Adjacent connectivity)
              {x | (g.data.get m).val - height.val ≤ (g.data.get x).val} p m ∧
            ∀ x, Linked (g.shape.Adjacent connectivity)
                {y | (g.data.get m).val - height.val ≤ (g.data.get y).val} p x →
              (g.data.get x).val ≤ (g.data.get m).val) ∧
    (∃ raised, g.hMinima height connectivity = .ok (g.withData raised) ∧
      ∃ minima : Vector Bool g.shape.len,
        (g.withData raised).regionalMinima connectivity = .ok ⟨g.shape, g.len_lt, minima⟩ ∧
          ∀ p, minima.get p = true ↔ ∃ m,
            Linked (g.shape.Adjacent connectivity)
              {x | (g.data.get x).val ≤ (g.data.get m).val + height.val} p m ∧
            ∀ x, Linked (g.shape.Adjacent connectivity)
                {y | (g.data.get y).val ≤ (g.data.get m).val + height.val} p x →
              (g.data.get m).val ≤ (g.data.get x).val) := by
  obtain ⟨maxima, hmaxima, hmaximal⟩ := regionalExtrema_suppressed g .dilation connectivity h
  obtain ⟨minima, hminima, hminimal⟩ := regionalExtrema_suppressed g .erosion connectivity h
  refine ⟨⟨_, hMaxima_eq_ok g connectivity h, maxima, hmaxima, fun p => ?_⟩,
    ⟨_, hMinima_eq_ok g connectivity h, minima, hminima, fun p => ?_⟩⟩
  · rw [hmaximal]
    simp only [underPeak_iff, levels_dilation_sample]
  · have hset (m : Fin g.shape.len) :
        {x | -(g.data.get m).val - height.val ≤ -(g.data.get x).val} =
          {x | (g.data.get x).val ≤ (g.data.get m).val + height.val} := by
      ext x
      simp only [Set.mem_ofPred_eq]
      omega
    rw [hminimal]
    simp only [underPeak_iff, levels_erosion_sample, hset, neg_le_neg_iff]

/-- A low peak, and two high ones with a shallow pass between them. -/
def peaks : Grid (Sample .u8) where
  shape := ⟨[3, 3], by decide, by decide, by decide⟩
  len_lt := by decide
  data := #v[4, 0, 9, 0, 0, 8, 0, 0, 9].map (Sample.nearest .u8)

/-- Under the height 5 the peak of 4 vanishes, and those of 9, 8 and 9 merge at 4. -/
example :
    ((peaks.suppressed .dilation (Sample.nearest .u8 5) .face).map Sample.val).toList =
      [0, 0, 4, 0, 0, 4, 0, 0, 4] := by
  decide +kernel

theorem regionalExtrema_peaks_iff_dynamic :
    0 ≤ (Sample.nearest .u8 5).val ∧
      (∃ lowered, peaks.hMaxima (Sample.nearest .u8 5) .face = .ok (peaks.withData lowered) ∧
        ∃ maxima : Vector Bool peaks.shape.len,
          (peaks.withData lowered).regionalMaxima .face = .ok ⟨peaks.shape, peaks.len_lt, maxima⟩ ∧
            ∀ p, maxima.get p = true ↔ ∃ m,
              Linked (peaks.shape.Adjacent .face)
                {x | (peaks.data.get m).val - 5 ≤ (peaks.data.get x).val} p m ∧
              ∀ x, Linked (peaks.shape.Adjacent .face)
                  {y | (peaks.data.get m).val - 5 ≤ (peaks.data.get y).val} p x →
                (peaks.data.get x).val ≤ (peaks.data.get m).val) ∧
      (∃ raised, peaks.hMinima (Sample.nearest .u8 5) .face = .ok (peaks.withData raised) ∧
        ∃ minima : Vector Bool peaks.shape.len,
          (peaks.withData raised).regionalMinima .face = .ok ⟨peaks.shape, peaks.len_lt, minima⟩ ∧
            ∀ p, minima.get p = true ↔ ∃ m,
              Linked (peaks.shape.Adjacent .face)
                {x | (peaks.data.get x).val ≤ (peaks.data.get m).val + 5} p m ∧
              ∀ x, Linked (peaks.shape.Adjacent .face)
                  {y | (peaks.data.get y).val ≤ (peaks.data.get m).val + 5} p x →
                (peaks.data.get m).val ≤ (peaks.data.get x).val) :=
  ⟨by decide, regionalExtrema_iff_dynamic peaks .face (by decide)⟩

end Grid

end Morphology
