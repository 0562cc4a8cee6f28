import Morphology.Proofs.Propagation.Schedule
import Morphology.Proofs.Propagation.Termination

/-! The passes together end at the stable marker that holds exactly what the first one reaches. -/

namespace Morphology

variable {α : Type} [Pixel α] {n : Nat} {adjacent : Fin n → Fin n → Prop} {schedule : Schedule n}
  {mask marker : Vector α n}

/-- Marker and queue as both sweeps leave them. -/
def afterSweeps (kind : Kind) (schedule : Schedule n) (mask marker : Vector α n) : Drained α n :=
  let swept := forwardSweep kind mask schedule.forward marker
  let seeded := backwardSweep kind mask schedule.backward swept.marker (Queue.empty n)
  ⟨⟨⟨seeded.marker, 0⟩, seeded.queue⟩, 0⟩

theorem sweepInvariant_forwardSweep (hschedule : schedule.Follows adjacent) (kind : Kind)
    (hmask : AllOrdered mask) (hmarker : AllOrdered marker) :
    SweepInvariant kind adjacent mask marker Set.univ
      (forwardSweep kind mask schedule.forward marker).marker := by
  have hstart : SweepInvariant kind adjacent mask marker ∅ (⟨marker, 0⟩ : Swept α n).marker :=
    sweepInvariant_start hmarker
  exact hstart.run hmask hschedule.symm hschedule.forward fun p => .inr (hschedule.mem_forward p)

/-- After the backward sweep nothing is missing from the queue, whatever the marker was before. -/
theorem drainInvariant_backwardSweep (hschedule : schedule.Follows adjacent) (kind : Kind)
    (hmask : AllOrdered mask) (hmarker : AllOrdered marker) :
    let seeded := backwardSweep kind mask schedule.backward marker (Queue.empty n)
    DrainInvariant kind adjacent mask marker nothingPending
      ⟨⟨⟨seeded.marker, 0⟩, seeded.queue⟩, 0⟩ := by
  have hstart : SeedInvariant kind adjacent mask marker ∅ ⟨⟨marker, 0⟩, Queue.empty n⟩ :=
    seedInvariant_start hmarker
  have h := hstart.run hmask hschedule.symm hschedule.backward fun p =>
    .inr (hschedule.mem_backward p)
  refine ⟨h.toSweepInvariant, h.consistent, ?_⟩
  intro p q hpq hlow hopen
  exact .inl (h.seeded p (Set.mem_univ p) q (Set.mem_univ q) hpq hlow hopen)

theorem drainInvariant_afterSweeps (hschedule : schedule.Follows adjacent) (kind : Kind)
    (hmask : AllOrdered mask) (hmarker : AllOrdered marker) :
    DrainInvariant kind adjacent mask marker nothingPending
      (afterSweeps kind schedule mask marker) := by
  have hswept := sweepInvariant_forwardSweep hschedule kind hmask hmarker
  have hseeded := drainInvariant_backwardSweep hschedule kind hmask hswept.ordered
  refine ⟨⟨hseeded.ordered, hseeded.below, ?_⟩, hseeded.consistent, hseeded.covered⟩
  intro t p
  exact (hseeded.reach t p).trans (hswept.reach t p)

/-- Where the invariant holds, the drain empties the queue, and leaves exactly the thresholds that
the start reaches. -/
theorem DrainInvariant.drain_spec {kind : Kind} {neighbors : Fin n → List (Fin n)}
    {start : Vector α n} {queue : Queue n}
    (h : DrainInvariant kind adjacent mask start nothingPending ⟨⟨⟨marker, 0⟩, queue⟩, 0⟩)
    (hmask : AllOrdered mask) (hneighbors : ∀ p q, q ∈ neighbors p ↔ adjacent p q) :
    let drained := drain kind mask neighbors marker queue
    drained.queue.toList = [] ∧ AllOrdered drained.marker ∧
      ∀ t p, t ≤ levels kind drained.marker p ↔
        Reached adjacent (levels kind mask) (levels kind start) t p := by
  intro drained
  have hempty : drained.queue.toList = [] := drain_queue_empty hmask h.ordered
  obtain ⟨m, hrun⟩ := drain_run kind mask marker neighbors queue
  have hend := h.run hmask hneighbors hrun
  exact ⟨hempty, hend.ordered, fun t p => hend.le_level_iff hempty⟩

/-- Propagation ends at the marker whose values are exactly the thresholds reached. -/
theorem propagate_spec (hschedule : schedule.Follows adjacent) (kind : Kind)
    (hmask : AllOrdered mask) (hmarker : AllOrdered marker) :
    AllOrdered (propagate kind schedule mask marker).1 ∧
      ∀ t p, t ≤ levels kind (propagate kind schedule mask marker).1 p ↔
        Reached adjacent (levels kind mask) (levels kind marker) t p :=
  ((drainInvariant_afterSweeps hschedule kind hmask hmarker).drain_spec hmask
    hschedule.mem_neighbors).2

end Morphology
