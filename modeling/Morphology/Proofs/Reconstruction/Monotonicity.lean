import Morphology.Proofs.Reconstruction.Result

/-! Reconstruction keeps the order of markers and of masks, and it takes joined markers to joined
results. Two runs queue and update different elements, so neither fact shows in their steps: both
are facts about what the markers reach. -/

namespace Morphology

variable {α : Type} [Pixel α] {n : Nat} {kind : Kind} {mask marker mask' marker' : Vector α n}
  {adjacent adjacent' : Fin n → Fin n → Prop} {schedule schedule' : Schedule n}

theorem respects_propagate (kind : Kind) (hschedule : schedule.Follows adjacent)
    (hschedule' : schedule'.Follows adjacent') (hadj : ∀ p q, adjacent p q → adjacent' p q)
    (hmask : ∀ p, kind.respects (mask.get p) (mask'.get p) = true)
    (hmarker : ∀ p, kind.respects (marker.get p) (marker'.get p) = true) (p : Fin n) :
    kind.respects ((propagate kind schedule mask marker).1.get p)
      ((propagate kind schedule' mask' marker').1.get p) = true := by
  have hmaskOrdered (q : Fin n) := Kind.ordered_of_respects (hmask q)
  have hmarkerOrdered (q : Fin n) := Kind.ordered_of_respects (hmarker q)
  have hmaskLevel (q : Fin n) : levels kind mask q ≤ levels kind mask' q :=
    (Kind.respects_iff (hmaskOrdered q).1 (hmaskOrdered q).2).mp (hmask q)
  have hmarkerLevel (q : Fin n) : levels kind marker q ≤ levels kind marker' q :=
    (Kind.respects_iff (hmarkerOrdered q).1 (hmarkerOrdered q).2).mp (hmarker q)
  obtain ⟨hordered, hlevel⟩ := propagate_spec hschedule kind (fun q => (hmaskOrdered q).1)
    (fun q => (hmarkerOrdered q).1)
  obtain ⟨hordered', hlevel'⟩ := propagate_spec hschedule' kind (fun q => (hmaskOrdered q).2)
    (fun q => (hmarkerOrdered q).2)
  have hreached := (hlevel _ p).mp le_rfl
  rw [Kind.respects_iff (hordered p) (hordered' p)]
  exact (hlevel' _ p).mpr (hreached.mono hadj hmaskLevel hmarkerLevel)

/-- With the second connectivity values end no lower: a dilation raises more in full than across
faces, and an erosion lowers less across faces than in full. -/
inductive Kind.NoLower : Kind → Connectivity → Connectivity → Prop where
  | same (kind : Kind) (connectivity : Connectivity) : NoLower kind connectivity connectivity
  | dilation : NoLower .dilation .face .full
  | erosion : NoLower .erosion .full .face

/-- Without the check, lower markers under lower masks have lower results, for both kinds and also
from one connectivity to the other. -/
theorem reconstruct_monotone (mask : Grid α) (marker mask' marker' : Vector α mask.shape.len)
    {connectivity connectivity' : Connectivity} (hconn : kind.NoLower connectivity connectivity')
    (hmarker : ∀ p, Pixel.le (marker.get p) (marker'.get p) = true)
    (hmask : ∀ p, Pixel.le (mask.data.get p) (mask'.get p) = true) :
    ∃ result result' : Vector α mask.shape.len,
      (mask.withData marker).reconstruct mask ⟨kind, connectivity, false⟩ =
          .ok (mask.withData result) ∧
        (mask.withData marker').reconstruct (mask.withData mask') ⟨kind, connectivity', false⟩ =
          .ok (mask.withData result') ∧
        ∀ p, Pixel.le (result.get p) (result'.get p) = true := by
  have hschedule := Shape.follows_schedule mask.len_lt
  refine ⟨_, _, Grid.reconstruct_unchecked mask marker kind connectivity,
    Grid.reconstruct_unchecked (mask.withData mask') marker' kind connectivity', ?_⟩
  cases kind with
  | dilation =>
      have hadj (p q : Fin mask.shape.len) (h : mask.shape.Adjacent connectivity p q) :
          mask.shape.Adjacent connectivity' p q := by
        cases hconn with
        | same => exact h
        | dilation => exact h.full
      exact respects_propagate .dilation (hschedule connectivity) (hschedule connectivity') hadj
        hmask hmarker
  | erosion =>
      have hadj (p q : Fin mask.shape.len) (h : mask.shape.Adjacent connectivity' p q) :
          mask.shape.Adjacent connectivity p q := by
        cases hconn with
        | same => exact h
        | erosion => exact h.full
      exact respects_propagate .erosion (hschedule connectivity') (hschedule connectivity) hadj
        hmask hmarker

theorem reconstruct_meander_monotone :
    Kind.NoLower .dilation .face .full ∧
      (∀ p, Pixel.le ((Grid.meanderSeed 3).get p) ((Grid.meanderSeed 9).get p) = true) ∧
      (∀ p, Pixel.le (Grid.meander.data.get p)
        ((Grid.meander.data.map (Pixel.add · Pixel.one)).get p) = true) ∧
      ∃ result result' : Vector (Sample .u8) Grid.meander.shape.len,
        (Grid.meander.withData (Grid.meanderSeed 3)).reconstruct Grid.meander
            ⟨.dilation, .face, false⟩ = .ok (Grid.meander.withData result) ∧
          (Grid.meander.withData (Grid.meanderSeed 9)).reconstruct
              (Grid.meander.withData (Grid.meander.data.map (Pixel.add · Pixel.one)))
              ⟨.dilation, .full, false⟩ = .ok (Grid.meander.withData result') ∧
          ∀ p, Pixel.le (result.get p) (result'.get p) = true :=
  have hmarker :
      ∀ p, Pixel.le ((Grid.meanderSeed 3).get p) ((Grid.meanderSeed 9).get p) = true := by
    decide +kernel
  have hmask : ∀ p, Pixel.le (Grid.meander.data.get p)
      ((Grid.meander.data.map (Pixel.add · Pixel.one)).get p) = true := by
    decide +kernel
  ⟨.dilation, hmarker, hmask, reconstruct_monotone Grid.meander _ _ _ .dilation hmarker hmask⟩

/-! ## Joined markers -/

theorem propagate_zipWith_combine_sameValues (hschedule : schedule.Follows adjacent)
    (kind : Kind) (hmask : AllOrdered mask) (hmarker : AllOrdered marker)
    (hmarker' : AllOrdered marker') :
    SameValues (propagate kind schedule mask (marker.zipWith kind.combine marker')).1
      ((propagate kind schedule mask marker).1.zipWith kind.combine
        (propagate kind schedule mask marker').1) := by
  obtain ⟨hfirst, hlevelFirst⟩ := propagate_spec hschedule kind hmask hmarker
  obtain ⟨hsecond, hlevelSecond⟩ := propagate_spec hschedule kind hmask hmarker'
  obtain ⟨hjoined, hlevelJoined⟩ := propagate_spec hschedule kind hmask
    (allOrdered_zipWith_combine kind hmarker _)
  apply sameValues_of_thresholds kind hjoined (allOrdered_zipWith_combine kind hfirst _)
  intro t p
  rw [hlevelJoined, levels_zipWith_combine kind hmarker hmarker', reached_max_iff, ← hlevelFirst,
    ← hlevelSecond, levels_zipWith_combine kind hfirst hsecond, le_max_iff]

/-- Without the check, the reconstruction by dilation of the greater of two markers everywhere is
the greater of their reconstructions everywhere; by erosion the same holds of the lesser. -/
theorem reconstruct_maxOf_minOf (mask : Grid α) (marker marker' : Vector α mask.shape.len)
    (connectivity : Connectivity) (hmask : AllOrdered mask.data) (hmarker : AllOrdered marker)
    (hmarker' : AllOrdered marker') :
    (∃ first second joined : Vector α mask.shape.len,
      (mask.withData marker).reconstruct mask ⟨.dilation, connectivity, false⟩ =
          .ok (mask.withData first) ∧
        (mask.withData marker').reconstruct mask ⟨.dilation, connectivity, false⟩ =
          .ok (mask.withData second) ∧
        (mask.withData (marker.zipWith Pixel.maxOf marker')).reconstruct mask
          ⟨.dilation, connectivity, false⟩ = .ok (mask.withData joined) ∧
        SameValues joined (first.zipWith Pixel.maxOf second)) ∧
    (∃ first second joined : Vector α mask.shape.len,
      (mask.withData marker).reconstruct mask ⟨.erosion, connectivity, false⟩ =
          .ok (mask.withData first) ∧
        (mask.withData marker').reconstruct mask ⟨.erosion, connectivity, false⟩ =
          .ok (mask.withData second) ∧
        (mask.withData (marker.zipWith Pixel.minOf marker')).reconstruct mask
          ⟨.erosion, connectivity, false⟩ = .ok (mask.withData joined) ∧
        SameValues joined (first.zipWith Pixel.minOf second)) := by
  have hschedule := Shape.follows_schedule mask.len_lt connectivity
  have haccepted (kind : Kind) (values : Vector α mask.shape.len) :=
    Grid.reconstruct_unchecked mask values kind connectivity
  exact ⟨⟨_, _, _, haccepted .dilation marker, haccepted .dilation marker', haccepted .dilation _,
      propagate_zipWith_combine_sameValues hschedule .dilation hmask hmarker hmarker'⟩,
    ⟨_, _, _, haccepted .erosion marker, haccepted .erosion marker', haccepted .erosion _,
      propagate_zipWith_combine_sameValues hschedule .erosion hmask hmarker hmarker'⟩⟩

theorem reconstruct_meander_maxOf_minOf :
    (∃ first second joined : Vector (Sample .u8) Grid.meander.shape.len,
      (Grid.meander.withData (Grid.meanderSeed 3)).reconstruct Grid.meander
          ⟨.dilation, .face, false⟩ = .ok (Grid.meander.withData first) ∧
        (Grid.meander.withData (Grid.meanderSeed 4).reverse).reconstruct Grid.meander
          ⟨.dilation, .face, false⟩ = .ok (Grid.meander.withData second) ∧
        (Grid.meander.withData
            ((Grid.meanderSeed 3).zipWith Pixel.maxOf (Grid.meanderSeed 4).reverse)).reconstruct
          Grid.meander ⟨.dilation, .face, false⟩ = .ok (Grid.meander.withData joined) ∧
        SameValues joined (first.zipWith Pixel.maxOf second)) ∧
    (∃ first second joined : Vector (Sample .u8) Grid.meander.shape.len,
      (Grid.meander.withData (Grid.meanderSeed 3)).reconstruct Grid.meander
          ⟨.erosion, .face, false⟩ = .ok (Grid.meander.withData first) ∧
        (Grid.meander.withData (Grid.meanderSeed 4).reverse).reconstruct Grid.meander
          ⟨.erosion, .face, false⟩ = .ok (Grid.meander.withData second) ∧
        (Grid.meander.withData
            ((Grid.meanderSeed 3).zipWith Pixel.minOf (Grid.meanderSeed 4).reverse)).reconstruct
          Grid.meander ⟨.erosion, .face, false⟩ = .ok (Grid.meander.withData joined) ∧
        SameValues joined (first.zipWith Pixel.minOf second)) :=
  reconstruct_maxOf_minOf Grid.meander (Grid.meanderSeed 3) (Grid.meanderSeed 4).reverse .face
    (allOrdered_sample _) (allOrdered_sample _) (allOrdered_sample _)

end Morphology
