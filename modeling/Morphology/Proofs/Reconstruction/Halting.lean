import Morphology.Proofs.Reconstruction.Result

/-! The drain of the queue as a loop without a bound. From every marker and every queue the loop
ends, after a number of updates that the values of marker and mask limit, so reconstruction ends
too. -/

namespace Morphology

variable {α : Type} [Pixel α] {n : Nat} {kind : Kind} {neighbors : Fin n → List (Fin n)}
  {mask marker : Vector α n}

/-- Elements are handled until nothing waits. -/
inductive DrainLoop (kind : Kind) (mask : Vector α n) (neighbors : Fin n → List (Fin n)) :
    Drained α n → Drained α n → Prop where
  | done {s} (h : drainStep? kind mask neighbors s = none) : DrainLoop kind mask neighbors s s
  | next {s t u} (h : drainStep? kind mask neighbors s = some t)
      (rest : DrainLoop kind mask neighbors t u) : DrainLoop kind mask neighbors s u

theorem DrainLoop.unique {s t u : Drained α n} (ht : DrainLoop kind mask neighbors s t)
    (hu : DrainLoop kind mask neighbors s u) : t = u := by
  induction ht with
  | done hnone =>
      cases hu with
      | done _ => rfl
      | next hsome _ =>
          rw [hnone] at hsome
          cases hsome
  | next hsome _ ih =>
      cases hu with
      | done hnone =>
          rw [hnone] at hsome
          cases hsome
      | next hother hrest =>
          rw [hsome, Option.some.injEq] at hother
          exact ih (hother ▸ hrest)

theorem drainLoop_drainSteps {fuel : Nat} {s : Drained α n}
    (hempty : (drainSteps kind mask neighbors fuel s).queue.toList = []) :
    DrainLoop kind mask neighbors s (drainSteps kind mask neighbors fuel s) := by
  induction fuel generalizing s with
  -- Without fuel it is the empty queue that ends the loop.
  | zero => exact .done (drainStep?_eq_none_iff.mpr hempty)
  | succ fuel ih =>
      rw [drainSteps] at hempty ⊢
      split
      · next hnone => exact .done hnone
      · next t hsome =>
          rw [hsome] at hempty
          exact .next hsome (ih hempty)

theorem drainLoop_iff {queue : Queue n} {final : Drained α n} (hmask : AllOrdered mask)
    (hmarker : AllOrdered marker) :
    DrainLoop kind mask neighbors ⟨⟨⟨marker, 0⟩, queue⟩, 0⟩ final ↔
      final = drain kind mask neighbors marker queue := by
  have hloop : DrainLoop kind mask neighbors ⟨⟨⟨marker, 0⟩, queue⟩, 0⟩
      (drain kind mask neighbors marker queue) :=
    drainLoop_drainSteps (drain_queue_empty hmask hmarker)
  constructor
  · intro h
    exact h.unique hloop
  · rintro rfl
    exact hloop

/-- How many values occur in a mask and a marker, those that compare equal counted once. -/
def distinctValues (mask marker : Vector α n) : Nat :=
  ((mask.toList ++ marker.toList).map Pixel.rank).toFinset.card

/-- A level is read off a rank alone. -/
def Kind.rankLevel (kind : Kind) (rank : Option Int) : Int :=
  match kind with
  | dilation => rank.getD 0
  | erosion => -rank.getD 0

theorem Kind.level_eq_rankLevel (kind : Kind) (a : α) :
    kind.level a = kind.rankLevel (Pixel.rank a) := by
  cases kind <;> rfl

theorem card_occurring_le_distinctValues (kind : Kind) (mask marker : Vector α n) :
    (occurring kind mask marker).card ≤ distinctValues mask marker := by
  have hsubset : occurring kind mask marker ⊆
      ((mask.toList ++ marker.toList).map Pixel.rank).toFinset.image kind.rankLevel := by
    intro level hlevel
    have hvalue : ∃ a ∈ mask.toList ++ marker.toList, kind.level a = level := by
      simp only [List.mem_append, mem_toList_iff_exists_get]
      rcases Finset.mem_union.mp hlevel with h | h
      · obtain ⟨p, _, hp⟩ := Finset.mem_image.mp h
        exact ⟨_, .inl ⟨p, rfl⟩, hp⟩
      · obtain ⟨p, _, hp⟩ := Finset.mem_image.mp h
        exact ⟨_, .inr ⟨p, rfl⟩, hp⟩
    obtain ⟨a, ha, rfl⟩ := hvalue
    rw [kind.level_eq_rankLevel]
    exact Finset.mem_image_of_mem _ (List.mem_toFinset.mpr (List.mem_map_of_mem ha))
  exact (Finset.card_le_card hsubset).trans Finset.card_image_le

theorem accounts_drain (kind : Kind) (neighbors : Fin n → List (Fin n)) (queue : Queue n)
    (hmask : AllOrdered mask) (hmarker : AllOrdered marker) :
    Accounts kind mask (occurring kind mask marker)
      (slack (occurring kind mask marker) (levels kind mask) (levels kind marker)) queue.size
      (drain kind mask neighbors marker queue) := by
  rcases drain_run kind mask marker neighbors queue with ⟨m, hrun⟩
  exact (accounts_run hmask hmarker hrun).1

theorem drain_updates_le (neighbors : Fin n → List (Fin n)) (queue : Queue n)
    (hmask : AllOrdered mask) (hmarker : AllOrdered marker) :
    (drain kind mask neighbors marker queue).updates ≤ n * (distinctValues mask marker - 1) := by
  have h := accounts_drain kind neighbors queue hmask hmarker
  have hcount := card_occurring_le_distinctValues kind mask marker
  calc (drain kind mask neighbors marker queue).updates
      ≤ slack (occurring kind mask marker) (levels kind mask) (levels kind marker) :=
        (Nat.le_add_right _ _).trans h.updates_le
    _ ≤ n * ((occurring kind mask marker).card - 1) :=
        slack_le mask_mem_occurring marker_mem_occurring
    _ ≤ n * (distinctValues mask marker - 1) := Nat.mul_le_mul_left n (by omega)

theorem drain_pops_le (neighbors : Fin n → List (Fin n)) (queue : Queue n)
    (hmask : AllOrdered mask) (hmarker : AllOrdered marker) :
    (drain kind mask neighbors marker queue).pops ≤
      queue.size + (drain kind mask neighbors marker queue).updates := by
  have h := accounts_drain kind neighbors queue hmask hmarker
  exact (Nat.le_add_right _ _).trans h.pops_le

/-! ## Reconstruction -/

/-- From every marker and queue the loop has exactly one end, the drain's; it updates no element
more often than there are further values, and pops no more than waited or was updated. So the loop
that reconstruction runs after its sweeps ends for every marker that is accepted, with or without
the check. -/
theorem drainLoop_halts_withinBounds (mask : Grid α) (marker : Vector α mask.shape.len)
    (queue : Queue mask.shape.len) (kind : Kind) (connectivity : Connectivity)
    (hmask : AllOrdered mask.data) (hmarker : AllOrdered marker) :
    let schedule := mask.shape.schedule connectivity
    let result := drain kind mask.data schedule.neighbors marker queue
    (∀ final, DrainLoop kind mask.data schedule.neighbors ⟨⟨⟨marker, 0⟩, queue⟩, 0⟩ final ↔
        final = result) ∧
      result.updates ≤ mask.shape.len * (distinctValues mask.data marker - 1) ∧
      result.pops ≤ queue.size + result.updates ∧
      ∀ check, (check = true → ∀ p, kind.respects (marker.get p) (mask.data.get p) = true) →
        ∃ final stats,
          DrainLoop kind mask.data schedule.neighbors (afterSweeps kind schedule mask.data marker)
              final ∧
            (mask.withData marker).reconstructInPlace mask ⟨kind, connectivity, check⟩ =
              (mask.withData final.marker, .ok stats) ∧
            stats.pops = final.pops ∧ stats.queueUpdates = final.updates := by
  intro schedule result
  refine ⟨fun _ => drainLoop_iff hmask hmarker, drain_updates_le schedule.neighbors queue hmask
    hmarker, drain_pops_le schedule.neighbors queue hmask hmarker, ?_⟩
  intro check haccepted
  have hschedule := Shape.follows_schedule mask.len_lt connectivity
  have hstart := (drainInvariant_afterSweeps hschedule kind hmask hmarker).ordered
  exact ⟨_, _, (drainLoop_iff hmask hstart).mpr rfl, Grid.reconstructInPlace_withData haccepted,
    rfl, rfl⟩

theorem drainLoop_meander_halts_withinBounds :
    let schedule := Grid.meander.shape.schedule .full
    let queue := ((Queue.empty Grid.meander.shape.len).push ⟨0, by decide⟩).2
    let result := drain .dilation Grid.meander.data schedule.neighbors (Grid.meanderSeed 9) queue
    (∀ final, DrainLoop .dilation Grid.meander.data schedule.neighbors
        ⟨⟨⟨Grid.meanderSeed 9, 0⟩, queue⟩, 0⟩ final ↔ final = result) ∧
      result.updates ≤ Grid.meander.shape.len *
        (distinctValues Grid.meander.data (Grid.meanderSeed 9) - 1) ∧
      result.pops ≤ queue.size + result.updates ∧
      ∀ check, (check = true → ∀ p, Kind.dilation.respects ((Grid.meanderSeed 9).get p)
          (Grid.meander.data.get p) = true) →
        ∃ final stats,
          DrainLoop .dilation Grid.meander.data schedule.neighbors
              (afterSweeps .dilation schedule Grid.meander.data (Grid.meanderSeed 9)) final ∧
            (Grid.meander.withData (Grid.meanderSeed 9)).reconstructInPlace Grid.meander
                ⟨.dilation, .full, check⟩ = (Grid.meander.withData final.marker, .ok stats) ∧
            stats.pops = final.pops ∧ stats.queueUpdates = final.updates :=
  drainLoop_halts_withinBounds Grid.meander (Grid.meanderSeed 9)
    ((Queue.empty Grid.meander.shape.len).push ⟨0, by decide⟩).2 .dilation .full
    (allOrdered_sample _) (allOrdered_sample _)

end Morphology
