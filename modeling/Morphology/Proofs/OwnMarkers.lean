import Morphology.Proofs.Extrema.Height
import Morphology.Proofs.Extrema.Regional
import Morphology.Proofs.Grid.Access
import Morphology.Proofs.Holes.Spill
import Morphology.Proofs.Opening.Survivors

/-! Operators that make their marker of the grid itself. Every such marker lies on the right side of
the grid, so the check would accept it, and nothing is refused but a negative height or a radius
that is too large. -/

namespace Morphology

/-- The arguments that are refused. -/
inductive OwnMarker.Refused {range : IntRange} :
    OwnMarker (Sample range) → OperatorError (Sample range) → Prop where
  | height {height : Sample range} (h : height.val < 0) :
      Refused (.shifted height) (.negativeHeight height)
  | radius {radius : Nat} (h : maxRadius < radius) :
      Refused (.filtered radius) (.radiusTooLarge radius)

variable {α : Type} [Pixel α]

theorem Bounded.respects_ite {a : α} (h : Bounded a) (kind : Kind) (keep : Bool) :
    kind.respects (if keep then a else kind.identity) a = true := by
  cases keep with
  | true => exact (Kind.respects_iff h.ordered h.ordered).mpr le_rfl
  | false =>
      exact (Kind.respects_iff (h.ordered_identity kind) h.ordered).mpr (h.level_identity_le kind)

namespace Grid

/-- The operators give the same results and the same errors whether the check is made or not. Holes,
peaks and regional extrema refuse nothing. -/
structure AgreesWith (g : Grid α) (connectivity : Connectivity) (check : Bool) : Prop where
  fillHoles : ∃ filled, g.fillHoles connectivity = .ok filled ∧
    g.restoredFrom .erosion connectivity check .boundary = .ok filled
  grindPeaks : ∃ ground, g.grindPeaks connectivity = .ok ground ∧
    g.restoredFrom .dilation connectivity check .boundary = .ok ground
  hMaxima (height : α) : g.restoredFrom .dilation connectivity check (.shifted height) =
    g.hMaxima height connectivity
  hMinima (height : α) : g.restoredFrom .erosion connectivity check (.shifted height) =
    g.hMinima height connectivity
  regionalMaxima : ∃ maxima, g.regionalMaxima connectivity = .ok maxima ∧
    g.extremaFrom .dilation connectivity check = .ok maxima
  regionalMinima : ∃ minima, g.regionalMinima connectivity = .ok minima ∧
    g.extremaFrom .erosion connectivity check = .ok minima
  opening (radius : Nat) : g.restoredFrom .dilation connectivity check (.filtered radius) =
    g.openingByReconstruction radius connectivity
  closing (radius : Nat) : g.restoredFrom .erosion connectivity check (.filtered radius) =
    g.closingByReconstruction radius connectivity

variable {g : Grid α} {kind : Kind} {connectivity : Connectivity} {check : Bool}

theorem respects_boundaryMarker (h : AllBounded g.data) (p : Fin g.shape.len) :
    kind.respects ((g.boundaryMarker kind).get p) (g.data.get p) = true := by
  rw [get_boundaryMarker]
  exact (h p).respects_ite kind _

theorem respects_escapeMarker (h : AllBounded g.data) (p : Fin g.shape.len) :
    kind.respects ((g.escapeMarker kind connectivity).get p) (g.data.get p) = true := by
  rw [get_escapeMarker]
  exact (h p).respects_ite kind _

theorem exists_respects_filterBox (h : AllBounded g.data) {radius : Nat}
    (hradius : radius ≤ maxRadius) :
    ∃ marker, g.filterBox radius kind.opposite = .ok (g.withData marker) ∧
      ∀ p, kind.respects (marker.get p) (g.data.get p) = true := by
  obtain ⟨marker, hfilter, hmarker⟩ := filterBox_filtered g kind.opposite hradius h
  refine ⟨marker, hfilter, fun p => ?_⟩
  rw [Kind.respects_iff (hmarker.ordered p) (h p).ordered]
  exact hmarker.le_opposite_iff.mp le_rfl p (Shape.inBox_self radius p)

section Integers

variable {range : IntRange} {g : Grid (Sample range)} {height : Sample range}
  {source : OwnMarker (Sample range)} {e : OperatorError (Sample range)}

theorem respects_shiftedMarker (h : 0 ≤ height.val) (p : Fin g.shape.len) :
    kind.respects ((g.shiftedMarker height kind).get p) (g.data.get p) = true := by
  have hlevel := levels_shiftedMarker g kind h p
  have hlow := (bounded_sample (g.data.get p)).level_identity_le kind
  rw [Kind.respects_iff (Sample.ordered _) (Sample.ordered _)]
  simp only [levels] at hlevel
  omega

/-! ## What is refused, and what is accepted -/

theorem ownMarker_of_refused (h : source.Refused e) :
    g.ownMarker kind connectivity source = .error e := by
  cases h with
  | height h =>
      rw [ownMarker, checkHeight_eq_error h]
      rfl
  | radius h => rw [ownMarker, filterBox, if_pos h]

/-- Arguments that are not refused give a marker on the right side of the grid. -/
theorem exists_ownMarker (g : Grid (Sample range)) (kind : Kind) (connectivity : Connectivity)
    (h : ∀ e, ¬ source.Refused e) :
    ∃ marker, g.ownMarker kind connectivity source = .ok (g.withData marker) ∧
      ∀ p, kind.respects (marker.get p) (g.data.get p) = true := by
  have hbounded := allBounded_sample g.data
  cases source with
  | boundary => exact ⟨_, rfl, respects_boundaryMarker hbounded⟩
  | shifted height =>
      have hheight : 0 ≤ height.val := not_lt.mp fun hneg => h _ (.height hneg)
      exact ⟨_, ownMarker_shifted g kind connectivity (checkHeight_eq_ok hheight),
        respects_shiftedMarker hheight⟩
  | escaping =>
      exact ⟨_, ownMarker_escaping g kind connectivity, respects_escapeMarker hbounded⟩
  | filtered radius =>
      have hradius : radius ≤ maxRadius := not_lt.mp fun hlarge => h _ (.radius hlarge)
      exact exists_respects_filterBox hbounded hradius

theorem restoredFrom_of_refused (h : source.Refused e) :
    g.restoredFrom kind connectivity check source = .error e := by
  rw [restoredFrom, ownMarker_of_refused h]
  rfl

/-- With the check and without it the argument is refused, or the same grid is restored. -/
theorem restoredFrom_cases (g : Grid (Sample range)) (kind : Kind) (connectivity : Connectivity)
    (source : OwnMarker (Sample range)) :
    (∃ e, source.Refused e ∧ ∀ check, g.restoredFrom kind connectivity check source = .error e) ∨
      ∃ restored, ∀ check, g.restoredFrom kind connectivity check source = .ok restored := by
  by_cases hrefused : ∃ e, source.Refused e
  · obtain ⟨e, he⟩ := hrefused
    exact .inl ⟨e, he, fun _ => restoredFrom_of_refused he⟩
  · obtain ⟨marker, hmarker, hrespects⟩ :=
      exists_ownMarker g kind connectivity (not_exists.mp hrefused)
    exact .inr ⟨_, fun _ => restoredFrom_eq hmarker fun _ => hrespects⟩

theorem restoredFrom_check (g : Grid (Sample range)) (kind : Kind) (connectivity : Connectivity)
    (check : Bool) (source : OwnMarker (Sample range)) :
    g.restoredFrom kind connectivity check source =
      g.restoredFrom kind connectivity false source := by
  rcases g.restoredFrom_cases kind connectivity source with ⟨e, _, hrun⟩ | ⟨restored, hrun⟩
  · rw [hrun, hrun]
  · rw [hrun, hrun]

theorem restoredFrom_eq_error_iff :
    g.restoredFrom kind connectivity check source = .error e ↔ source.Refused e := by
  constructor
  · intro herror
    rcases g.restoredFrom_cases kind connectivity source with ⟨e', he', hrun⟩ | ⟨restored, hrun⟩
    · rw [hrun, Except.error.injEq] at herror
      exact herror ▸ he'
    · rw [hrun] at herror
      cases herror
  · exact restoredFrom_of_refused

theorem extremaFrom_check (g : Grid (Sample range)) (kind : Kind) (connectivity : Connectivity)
    (check : Bool) :
    g.extremaFrom kind connectivity check = g.regionalExtrema kind connectivity := by
  rw [regionalExtrema, extremaFrom, extremaFrom, restoredFrom_check]

theorem agreesWith (g : Grid (Sample range)) (connectivity : Connectivity) (check : Bool) :
    g.AgreesWith connectivity check where
  fillHoles := by
    rw [restoredFrom_check]
    exact ⟨_, fillHoles_eq g connectivity, fillHoles_eq g connectivity⟩
  grindPeaks := by
    rw [restoredFrom_check]
    exact ⟨_, grindPeaks_eq g connectivity, grindPeaks_eq g connectivity⟩
  hMaxima _ := restoredFrom_check g _ _ _ _
  hMinima _ := restoredFrom_check g _ _ _ _
  regionalMaxima := by
    rw [extremaFrom_check]
    exact ⟨_, regionalExtrema_eq g .dilation connectivity,
      regionalExtrema_eq g .dilation connectivity⟩
  regionalMinima := by
    rw [extremaFrom_check]
    exact ⟨_, regionalExtrema_eq g .erosion connectivity,
      regionalExtrema_eq g .erosion connectivity⟩
  opening _ := restoredFrom_check g _ _ _ _
  closing _ := restoredFrom_check g _ _ _ _

/-- Every marker that an operator makes of the grid itself would be accepted, so with and without
the check the operators give the same results and the same errors. They refuse a negative height and
a radius that is too large, and nothing else. -/
theorem ownMarkers_accepted (g : Grid (Sample range)) (connectivity : Connectivity) :
    (∀ (kind : Kind) (source : OwnMarker (Sample range)), (∀ e, ¬ source.Refused e) →
      ∃ marker, g.ownMarker kind connectivity source = .ok marker ∧
        marker.validateMarker g kind = .ok ()) ∧
    (∀ check, g.AgreesWith connectivity check) ∧
    (∀ (kind : Kind) (check : Bool) (source : OwnMarker (Sample range)) (e),
      g.restoredFrom kind connectivity check source = .error e ↔ source.Refused e) := by
  refine ⟨?_, g.agreesWith connectivity, fun _ _ _ _ => restoredFrom_eq_error_iff⟩
  intro kind source haccepted
  obtain ⟨marker, hmarker, hrespects⟩ := exists_ownMarker g kind connectivity haccepted
  exact ⟨_, hmarker, validateMarker_withData hrespects⟩

theorem ownMarkers_meander_accepted :
    (∀ e, ¬ (OwnMarker.shifted (Sample.nearest .u8 2)).Refused e) ∧
    (∃ marker, meander.ownMarker .dilation .face (.shifted (Sample.nearest .u8 2)) = .ok marker ∧
      marker.validateMarker meander .dilation = .ok ()) ∧
    (∀ e, ¬ (OwnMarker.filtered (α := Sample .u8) 1).Refused e) ∧
    (∃ marker, meander.ownMarker .erosion .face (.filtered 1) = .ok marker ∧
      marker.validateMarker meander .erosion = .ok ()) ∧
    meander.AgreesWith .face true ∧
    meander.restoredFrom .erosion .face true (.filtered (maxRadius + 1)) =
      .error (.radiusTooLarge (maxRadius + 1)) := by
  have hshifted : ∀ e, ¬ (OwnMarker.shifted (Sample.nearest .u8 2)).Refused e := by
    rintro e ⟨hheight⟩
    exact absurd hheight (by decide)
  have hfiltered : ∀ e, ¬ (OwnMarker.filtered (α := Sample .u8) 1).Refused e := by
    rintro e (_ | ⟨hradius⟩)
    exact absurd hradius (by decide)
  obtain ⟨haccepted, hagrees, herrors⟩ := ownMarkers_accepted meander .face
  exact ⟨hshifted, haccepted .dilation _ hshifted, hfiltered, haccepted .erosion _ hfiltered,
    hagrees true, (herrors _ _ _ _).mpr (.radius (Nat.lt_succ_self _))⟩

end Integers

end Grid

end Morphology
