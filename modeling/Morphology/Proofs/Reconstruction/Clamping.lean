import Morphology.Proofs.Propagation.Comparisons
import Morphology.Proofs.Reconstruction.Result

/-! Without the check a marker may lie on the wrong side of its mask. The forward sweep cuts it
there before any neighbor reads it, so reconstruction goes on as from the marker cut beforehand. -/

namespace Morphology

variable {α : Type} [Pixel α] {n : Nat} {kind : Kind} {adjacent : Fin n → Fin n → Prop}
  {mask marker : Vector α n}

structure SameLevel (kind : Kind) (a b : α) : Prop where
  left : Pixel.Ordered a
  right : Pixel.Ordered b
  level_eq : kind.level a = kind.level b

theorem comparesAlike_sameLevel (kind : Kind) :
    ComparesAlike kind kind (SameLevel kind : α → α → Prop) where
  precedes hab hcd := by
    rw [Bool.eq_iff_iff, Kind.precedes_iff hab.left hcd.left, Kind.precedes_iff hab.right hcd.right,
      hab.level_eq, hcd.level_eq]
  eq hab hcd := by
    rw [Bool.eq_iff_iff, Kind.eq_iff kind hab.left hcd.left, Kind.eq_iff kind hab.right hcd.right,
      hab.level_eq, hcd.level_eq]

theorem sameValues_of_sameLevel {v w : Vector α n} (h : Pointwise (SameLevel kind) v w) :
    SameValues v w := by
  intro i
  exact (Kind.eq_iff kind (h i).left (h i).right).mpr (h i).level_eq

/-- The marker with every value cut at its own mask. -/
def cutMarker (kind : Kind) (mask marker : Vector α n) : Vector α n :=
  Vector.ofFn fun p => kind.clamp (marker.get p) (mask.get p)

theorem allOrdered_cutMarker (kind : Kind) (mask : Vector α n)
    (hmarker : AllOrdered marker) : AllOrdered (cutMarker kind mask marker) := by
  intro p
  rw [cutMarker, get_ofFn]
  exact Kind.ordered_clamp (hmarker p)

theorem levels_cutMarker (kind : Kind) (hmask : AllOrdered mask) (hmarker : AllOrdered marker)
    (p : Fin n) :
    levels kind (cutMarker kind mask marker) p =
      min (levels kind marker p) (levels kind mask p) := by
  rw [levels, cutMarker, get_ofFn]
  exact Kind.level_clamp (hmarker p) (hmask p)

theorem respects_cutMarker (kind : Kind) (hmask : AllOrdered mask) (hmarker : AllOrdered marker)
    (p : Fin n) :
    kind.respects ((cutMarker kind mask marker).get p) (mask.get p) = true := by
  rw [Kind.respects_iff (allOrdered_cutMarker kind mask hmarker p) (hmask p)]
  exact (levels_cutMarker kind hmask hmarker p).trans_le (min_le_right _ _)

/-- Two markers agree under the mask everywhere, and where the sweep has been they agree. -/
structure SameCut (kind : Kind) (mask : Vector α n) (seen : Set (Fin n)) (v w : Vector α n) :
    Prop where
  left : AllOrdered v
  right : AllOrdered w
  cut_eq : ∀ p, min (levels kind v p) (levels kind mask p) =
    min (levels kind w p) (levels kind mask p)
  level_eq : ∀ p ∈ seen, levels kind v p = levels kind w p

theorem sameCut_cutMarker (kind : Kind) (hmask : AllOrdered mask) (hmarker : AllOrdered marker) :
    SameCut kind mask ∅ marker (cutMarker kind mask marker) := by
  refine ⟨hmarker, allOrdered_cutMarker kind mask hmarker, ?_, by simp⟩
  intro p
  rw [levels_cutMarker kind hmask hmarker, min_assoc, min_self]

variable {seen : Set (Fin n)} {s t : Swept α n}

theorem SameCut.level_settled_eq {v w : Vector α n} {visit : Visit n}
    (h : SameCut kind mask seen v w) (hmask : AllOrdered mask)
    (hpassed : ∀ q ∈ visit.passed, q ∈ seen) :
    kind.level (settled kind mask v visit) = kind.level (settled kind mask w visit) := by
  apply eq_of_forall_le_iff
  intro t
  rw [le_level_settled_iff kind hmask h.left, le_level_settled_iff kind hmask h.right]
  have hown : t ≤ levels kind v visit.index ∧ t ≤ levels kind mask visit.index ↔
      t ≤ levels kind w visit.index ∧ t ≤ levels kind mask visit.index := by
    rw [← le_min_iff, h.cut_eq, le_min_iff]
  have hneighbors : (∃ q ∈ visit.passed, t ≤ levels kind v q) ↔
      ∃ q ∈ visit.passed, t ≤ levels kind w q := by
    apply exists_congr
    intro q
    rw [and_congr_right_iff]
    intro hq
    rw [h.level_eq q (hpassed q hq)]
  rw [or_and_right, or_and_right, hown, hneighbors]

theorem SameCut.step {visit : Visit n} (h : SameCut kind mask seen s.marker t.marker)
    (hmask : AllOrdered mask) (hpassed : ∀ q ∈ visit.passed, q ∈ seen) :
    SameCut kind mask (insert visit.index seen) (sweepStep kind mask s visit).marker
      (sweepStep kind mask t visit).marker := by
  have hv := ordered_settled kind mask (h.left visit.index)
  have hw := ordered_settled kind mask (h.right visit.index)
  have hsettled := h.level_settled_eq hmask hpassed
  refine ⟨ordered_write h.left hv _, ordered_write h.right hw _, ?_, ?_⟩
  · intro p
    rw [sweepStep, sweepStep, levels_write kind h.left hv, levels_write kind h.right hw, hsettled]
    by_cases hp : p = visit.index
    · rw [hp, Function.update_self, Function.update_self]
    · rw [Function.update_of_ne hp, Function.update_of_ne hp]
      exact h.cut_eq p
  · intro p hp
    rw [sweepStep, sweepStep, levels_write kind h.left hv, levels_write kind h.right hw, hsettled]
    by_cases hpv : p = visit.index
    · rw [hpv, Function.update_self, Function.update_self]
    · rw [Function.update_of_ne hpv, Function.update_of_ne hpv]
      exact h.level_eq p (Set.mem_of_mem_insert_of_ne hp hpv)

theorem SameCut.run {visits : List (Visit n)} (h : SameCut kind mask seen s.marker t.marker)
    (hmask : AllOrdered mask) (hvisits : Chronological adjacent seen visits)
    (hall : ∀ p, p ∈ seen ∨ p ∈ visits.map Visit.index) :
    Pointwise (SameLevel kind) (visits.foldl (sweepStep kind mask) s).marker
      (visits.foldl (sweepStep kind mask) t).marker := by
  induction hvisits generalizing s t with
  | nil seen =>
      intro p
      exact ⟨h.left p, h.right p, h.level_eq p (by simpa using hall p)⟩
  | cons hpassed _ ih =>
      apply ih _ (seen_or_mem hall)
      apply h.step hmask
      intro q hq
      exact ((hpassed q).mp hq).2

/-- Without the check reconstruction succeeds for every marker and mask, and its result respects the
mask. To cut the marker at its mask beforehand changes neither the values nor any count but the
forward sweep's. -/
theorem reconstruct_unchecked_sameValues_cut (mask : Grid α) (marker : Vector α mask.shape.len)
    (kind : Kind) (connectivity : Connectivity) (check : Bool) (hmask : AllOrdered mask.data)
    (hmarker : AllOrdered marker) :
    ∃ (result cutResult : Vector α mask.shape.len) (stats cutStats : Stats),
      (mask.withData marker).reconstructInPlace mask ⟨kind, connectivity, false⟩ =
          (mask.withData result, .ok stats) ∧
        (mask.withData (cutMarker kind mask.data marker)).reconstructInPlace mask
            ⟨kind, connectivity, check⟩ = (mask.withData cutResult, .ok cutStats) ∧
        SameValues result cutResult ∧
        cutStats = { stats with forwardUpdates := cutStats.forwardUpdates } ∧
        ∀ p, kind.respects (result.get p) (mask.data.get p) = true := by
  have hschedule := Shape.follows_schedule mask.len_lt connectivity
  have hmaskLevel : Pointwise (SameLevel kind) mask.data mask.data :=
    fun p => ⟨hmask p, hmask p, rfl⟩
  have hcut : SameCut kind mask.data ∅ (⟨marker, 0⟩ : Swept α _).marker
      (⟨cutMarker kind mask.data marker, 0⟩ : Swept α _).marker :=
    sameCut_cutMarker kind hmask hmarker
  obtain ⟨hvalues, hstats⟩ := propagate_alike (comparesAlike_sameLevel kind) hmaskLevel
    (hcut.run hmask hschedule.forward fun p => .inr (hschedule.mem_forward p))
  obtain ⟨hordered, hlevel⟩ := Grid.propagate_schedule_spec kind connectivity hmask hmarker
  refine ⟨_, _, _, _, Grid.reconstructInPlace_withData (by simp),
    Grid.reconstructInPlace_withData fun _ => respects_cutMarker kind hmask hmarker,
    sameValues_of_sameLevel hvalues, hstats, ?_⟩
  intro p
  exact (Kind.respects_iff (hordered p) (hmask p)).mpr ((hlevel _ p).mp le_rfl).le_mask

theorem reconstruct_unchecked_meander_sameValues_cut :
    ∃ (result cutResult : Vector (Sample .u8) Grid.meander.shape.len) (stats cutStats : Stats),
      (Grid.meander.withData (Grid.meanderSeed 9)).reconstructInPlace Grid.meander
          ⟨.dilation, .face, false⟩ = (Grid.meander.withData result, .ok stats) ∧
        (Grid.meander.withData
            (cutMarker .dilation Grid.meander.data (Grid.meanderSeed 9))).reconstructInPlace
          Grid.meander ⟨.dilation, .face, true⟩ = (Grid.meander.withData cutResult, .ok cutStats) ∧
        SameValues result cutResult ∧
        cutStats = { stats with forwardUpdates := cutStats.forwardUpdates } ∧
        ∀ p, Kind.dilation.respects (result.get p) (Grid.meander.data.get p) = true :=
  reconstruct_unchecked_sameValues_cut Grid.meander (Grid.meanderSeed 9) .dilation .face true
    (allOrdered_sample _) (allOrdered_sample _)

end Morphology
