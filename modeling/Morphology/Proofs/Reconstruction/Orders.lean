import Morphology.Proofs.Reconstruction.Result

/-! The order of the queue does not matter: however the elements that wait and their neighbors are
chosen, the runs are finite and end at one marker. -/

namespace Morphology

variable {α : Type} [Pixel α] {n : Nat} {kind : Kind} {adjacent : Fin n → Fin n → Prop}
  {neighbors : Fin n → List (Fin n)} {mask start : Vector α n}

theorem DrainInvariant.sameValues {s t u : Drained α n} {m k : Nat}
    (h : DrainInvariant kind adjacent mask start nothingPending s) (hmask : AllOrdered mask)
    (hneighbors : ∀ p q, q ∈ neighbors p ↔ adjacent p q)
    (ht : AnyOrderRun kind mask neighbors s m t) (htempty : t.queue.toList = [])
    (hu : AnyOrderRun kind mask neighbors s k u) (huempty : u.queue.toList = []) :
    SameValues t.marker u.marker := by
  have hfirst := h.run hmask hneighbors ht
  have hsecond := h.run hmask hneighbors hu
  apply sameValues_of_thresholds kind hfirst.ordered hsecond.ordered
  intro height p
  rw [hfirst.le_level_iff htempty, hsecond.le_level_iff huempty]

/-- From what the sweeps leave, every run is at most as long as the drain's bound, goes on as long
as something waits, and has the values of the drain when nothing does; the drain is such a run. -/
theorem drain_sameValues_anyOrder (mask : Grid α) (marker : Vector α mask.shape.len)
    (kind : Kind) (connectivity : Connectivity) (hmask : AllOrdered mask.data)
    (hmarker : AllOrdered marker) :
    let schedule := mask.shape.schedule connectivity
    let start := afterSweeps kind schedule mask.data marker
    let result := drain kind mask.data schedule.neighbors start.marker start.queue
    (∀ m s, AnyOrderRun kind mask.data schedule.neighbors start m s →
        m ≤ drainBound start.queue ∧
          (s.queue.toList ≠ [] → ∃ next, AnyOrderStep kind mask.data schedule.neighbors s next) ∧
          (s.queue.toList = [] → SameValues s.marker result.marker)) ∧
      (∃ m, AnyOrderRun kind mask.data schedule.neighbors start m result) ∧
        result.queue.toList = [] := by
  intro schedule start result
  have hschedule := Shape.follows_schedule mask.len_lt connectivity
  have hstart := drainInvariant_afterSweeps hschedule kind hmask hmarker
  have hempty : result.queue.toList = [] := drain_queue_empty hmask hstart.ordered
  obtain ⟨k, hresult⟩ := drain_run kind mask.data start.marker schedule.neighbors start.queue
  refine ⟨?_, ⟨k, hresult⟩, hempty⟩
  intro m s hrun
  have hlength : m + s.queue.size ≤ drainBound start.queue :=
    length_run_le hmask hstart.ordered hrun
  refine ⟨by omega, exists_anyOrderStep, ?_⟩
  intro hdone
  exact hstart.sameValues hmask hschedule.mem_neighbors hrun hdone hresult hempty

theorem drain_meander_sameValues_anyOrder :
    let schedule := Grid.meander.shape.schedule .face
    let start := afterSweeps .dilation schedule Grid.meander.data (Grid.meanderSeed 3)
    let result := drain .dilation Grid.meander.data schedule.neighbors start.marker start.queue
    (∀ m s, AnyOrderRun .dilation Grid.meander.data schedule.neighbors start m s →
        m ≤ drainBound start.queue ∧
          (s.queue.toList ≠ [] →
            ∃ next, AnyOrderStep .dilation Grid.meander.data schedule.neighbors s next) ∧
          (s.queue.toList = [] → SameValues s.marker result.marker)) ∧
      (∃ m, AnyOrderRun .dilation Grid.meander.data schedule.neighbors start m result) ∧
        result.queue.toList = [] :=
  drain_sameValues_anyOrder Grid.meander (Grid.meanderSeed 3) .dilation .face
    (allOrdered_sample _) (allOrdered_sample _)

end Morphology
