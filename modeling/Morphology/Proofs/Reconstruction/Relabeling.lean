import Mathlib.Order.Monotone.Basic
import Morphology.Proofs.Propagation.Comparisons
import Morphology.Proofs.Reconstruction.Result

/-! Reconstruction after a change of values. A map that keeps the order of integers may be applied
before reconstruction or after it; one that reverses the order exchanges the two kinds. If moreover
no two values become equal, the runs take the same course. -/

namespace Morphology

variable {r r' : IntRange} {kind other : Kind} {φ : Sample r → Sample r'} {n : Nat}

/-- Samples are ordered as the integers that they are. -/
instance : LinearOrder (Sample r) := LinearOrder.lift' Sample.val fun _ _ => Sample.ext

namespace Kind

variable {a b : Sample r}

theorem level_erosion_le : erosion.level a ≤ erosion.level b ↔ b ≤ a := Int.neg_le_neg_iff

theorem level_erosion_lt : erosion.level a < erosion.level b ↔ b < a := Int.neg_lt_neg_iff

end Kind

/-- The map takes the levels of one kind to those of another, keeping their order. -/
def CarriesLevels (kind other : Kind) (φ : Sample r → Sample r') : Prop :=
  ∀ a b, kind.level a ≤ kind.level b → other.level (φ a) ≤ other.level (φ b)

/-- The map moreover keeps different levels apart. -/
def CarriesLevelsStrictly (kind other : Kind) (φ : Sample r → Sample r') : Prop :=
  ∀ a b, kind.level a < kind.level b ↔ other.level (φ a) < other.level (φ b)

theorem carriesLevels_of_monotone (kind : Kind) (hφ : Monotone φ) : CarriesLevels kind kind φ := by
  intro a b hle
  cases kind with
  | dilation => exact hφ hle
  | erosion => exact Kind.level_erosion_le.mpr (hφ (Kind.level_erosion_le.mp hle))

theorem carriesLevels_of_antitone (kind : Kind) (hφ : Antitone φ) :
    CarriesLevels kind kind.opposite φ := by
  intro a b hle
  cases kind with
  | dilation => exact Kind.level_erosion_le.mpr (hφ hle)
  | erosion => exact hφ (Kind.level_erosion_le.mp hle)

theorem carriesLevelsStrictly_of_strictMono (kind : Kind) (hφ : StrictMono φ) :
    CarriesLevelsStrictly kind kind φ := by
  intro a b
  cases kind with
  | dilation => exact hφ.lt_iff_lt.symm
  | erosion => rw [Kind.level_erosion_lt, Kind.level_erosion_lt, hφ.lt_iff_lt]

theorem carriesLevelsStrictly_of_strictAnti (kind : Kind) (hφ : StrictAnti φ) :
    CarriesLevelsStrictly kind kind.opposite φ := by
  intro a b
  cases kind with
  | dilation => exact hφ.lt_iff_gt.symm.trans Kind.level_erosion_lt.symm
  | erosion => exact Kind.level_erosion_lt.trans hφ.lt_iff_gt.symm

theorem comparesAlike_of_carriesLevelsStrictly (h : CarriesLevelsStrictly kind other φ) :
    ComparesAlike kind other (fun a b => b = φ a) where
  precedes := by
    rintro a c _ _ rfl rfl
    rw [Bool.eq_iff_iff, Kind.precedes_iff (Sample.ordered _) (Sample.ordered _),
      Kind.precedes_iff (Sample.ordered _) (Sample.ordered _), h]
  eq := by
    rintro a c _ _ rfl rfl
    have hbelow := h a c
    have habove := h c a
    rw [Bool.eq_iff_iff, Kind.eq_iff kind (Sample.ordered _) (Sample.ordered _),
      Kind.eq_iff other (Sample.ordered _) (Sample.ordered _)]
    omega

variable {adjacent : Fin n → Fin n → Prop} {schedule : Schedule n}
  {mask marker : Vector (Sample r) n}

theorem marker_propagate_map (hschedule : schedule.Follows adjacent)
    (hφ : CarriesLevels kind other φ) :
    (propagate other schedule (mask.map φ) (marker.map φ)).1 =
      (propagate kind schedule mask marker).1.map φ := by
  obtain ⟨_, hlevel⟩ := propagate_spec hschedule kind (allOrdered_sample mask)
    (allOrdered_sample marker)
  obtain ⟨_, himage⟩ := propagate_spec hschedule other (allOrdered_sample (mask.map φ))
    (allOrdered_sample (marker.map φ))
  have hlevels (v : Vector (Sample r) n) :
      levels other (v.map φ) = fun p => other.level (φ (v.get p)) := by
    funext p
    rw [levels, get_map]
  apply eq_of_thresholds other
  intro t p
  rw [himage, hlevels, hlevels, hlevels]
  exact (le_image_iff_reached hφ hlevel).symm

theorem stats_propagate_map (schedule : Schedule n) (hφ : CarriesLevelsStrictly kind other φ) :
    (propagate other schedule (mask.map φ) (marker.map φ)).2 =
      (propagate kind schedule mask marker).2 := by
  have hmap (v : Vector (Sample r) n) : Pointwise (fun a b => b = φ a) v (v.map φ) :=
    fun p => get_map φ v p
  exact (propagate_alike_stats (comparesAlike_of_carriesLevelsStrictly hφ) (hmap mask) (hmap marker)
    schedule).2

/-! ## Reconstruction -/

theorem reconstructInPlace_map (mask : Grid (Sample r)) (marker : Vector (Sample r) mask.shape.len)
    (connectivity : Connectivity) (hφ : CarriesLevels kind other φ) :
    let schedule := mask.shape.schedule connectivity
    ((mask.withData marker).map φ).reconstructInPlace (mask.map φ) ⟨other, connectivity, false⟩ =
      ((mask.withData (propagate kind schedule mask.data marker).1).map φ,
        .ok (propagate other schedule (mask.data.map φ) (marker.map φ)).2) := by
  intro schedule
  have hschedule : schedule.Follows (mask.shape.Adjacent connectivity) :=
    Shape.follows_schedule mask.len_lt connectivity
  have hdata : (mask.map φ).withData (propagate other schedule (mask.data.map φ) (marker.map φ)).1 =
      (mask.withData (propagate kind schedule mask.data marker).1).map φ :=
    congrArg (fun data => (mask.map φ).withData data) (marker_propagate_map hschedule hφ)
  rw [← hdata]
  exact Grid.reconstructInPlace_unchecked (mask.map φ) (marker.map φ) other connectivity

/-- Without the check, to map all values and then reconstruct is to reconstruct and then map: under
the same kind for a map that keeps the order, under the opposite kind for one that reverses it. If
different values stay different, all counts are the same too. -/
theorem reconstruct_map_monotone_antitone (mask : Grid (Sample r))
    (marker : Vector (Sample r) mask.shape.len) (φ : Sample r → Sample r') (kind : Kind)
    (connectivity : Connectivity) :
    ∃ (result : Vector (Sample r) mask.shape.len) (stats : Stats),
      (mask.withData marker).reconstructInPlace mask ⟨kind, connectivity, false⟩ =
          (mask.withData result, .ok stats) ∧
        (Monotone φ → ∃ mappedStats,
          ((mask.withData marker).map φ).reconstructInPlace (mask.map φ)
              ⟨kind, connectivity, false⟩ = ((mask.withData result).map φ, .ok mappedStats) ∧
            (StrictMono φ → mappedStats = stats)) ∧
        (Antitone φ → ∃ mappedStats,
          ((mask.withData marker).map φ).reconstructInPlace (mask.map φ)
              ⟨kind.opposite, connectivity, false⟩ =
                ((mask.withData result).map φ, .ok mappedStats) ∧
            (StrictAnti φ → mappedStats = stats)) := by
  refine ⟨_, _, Grid.reconstructInPlace_unchecked mask marker kind connectivity, ?_, ?_⟩
  · intro hφ
    have hlevels := carriesLevels_of_monotone kind hφ
    refine ⟨_, reconstructInPlace_map mask marker connectivity hlevels, ?_⟩
    intro hstrict
    exact stats_propagate_map _ (carriesLevelsStrictly_of_strictMono kind hstrict)
  · intro hφ
    have hlevels := carriesLevels_of_antitone kind hφ
    refine ⟨_, reconstructInPlace_map mask marker connectivity hlevels, ?_⟩
    intro hstrict
    exact stats_propagate_map _ (carriesLevelsStrictly_of_strictAnti kind hstrict)

/-- The least sample becomes the greatest and the other way round. -/
def Sample.complement (a : Sample r) : Sample r where
  val := r.lo + r.hi - a.val
  lo_le := by
    have := a.le_hi
    omega
  le_hi := by
    have := a.lo_le
    omega

theorem Sample.strictAnti_complement : StrictAnti (Sample.complement : Sample r → Sample r) := by
  intro a b hlt
  exact Int.sub_lt_sub_left hlt _

theorem reconstruct_meander_map_complement :
    StrictAnti (Sample.complement : Sample .u8 → Sample .u8) ∧
      ∃ (result : Vector (Sample .u8) Grid.meander.shape.len) (stats : Stats),
        (Grid.meander.withData (Grid.meanderSeed 9)).reconstructInPlace Grid.meander
            ⟨.dilation, .face, false⟩ = (Grid.meander.withData result, .ok stats) ∧
          ((Grid.meander.withData (Grid.meanderSeed 9)).map Sample.complement).reconstructInPlace
              (Grid.meander.map Sample.complement) ⟨.erosion, .face, false⟩ =
            ((Grid.meander.withData result).map Sample.complement, .ok stats) := by
  have hstrict : StrictAnti (Sample.complement : Sample .u8 → Sample .u8) :=
    Sample.strictAnti_complement
  obtain ⟨result, stats, hrun, _, hanti⟩ := reconstruct_map_monotone_antitone Grid.meander
    (Grid.meanderSeed 9) Sample.complement .dilation .face
  obtain ⟨mappedStats, hmapped, hsame⟩ := hanti hstrict.antitone
  rw [hsame hstrict] at hmapped
  exact ⟨hstrict, result, stats, hrun, hmapped⟩

end Morphology
