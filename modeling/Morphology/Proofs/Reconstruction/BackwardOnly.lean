import Morphology.Proofs.Reconstruction.Result

/-! The forward sweep only saves work. The backward sweep alone, on the marker as it is given,
queues every element that could still raise a neighbor, and the drain then ends at the values of all
passes. -/

namespace Morphology

variable {α : Type} [Pixel α]

def sweptBackward (kind : Kind) (connectivity : Connectivity) (mask : Grid α)
    (marker : Vector α mask.shape.len) : Seeded α mask.shape.len :=
  backwardSweep kind mask.data (mask.shape.schedule connectivity).backward marker
    (Queue.empty mask.shape.len)

theorem mem_queue_sweptBackward {mask : Grid α} {marker : Vector α mask.shape.len} {kind : Kind}
    {connectivity : Connectivity} (hmask : AllOrdered mask.data) (hmarker : AllOrdered marker)
    {p q : Fin mask.shape.len} (hadj : mask.shape.Adjacent connectivity p q)
    (hbehind : kind.precedes ((sweptBackward kind connectivity mask marker).marker.get q)
      ((sweptBackward kind connectivity mask marker).marker.get p) = true)
    (hroom : kind.precedes ((sweptBackward kind connectivity mask marker).marker.get q)
      (mask.data.get q) = true) :
    p ∈ (sweptBackward kind connectivity mask marker).queue.toList ∧
      (sweptBackward kind connectivity mask marker).queue.queued.get p = true := by
  have hschedule := Shape.follows_schedule mask.len_lt connectivity
  have h := drainInvariant_backwardSweep hschedule kind hmask hmarker
  have hlow := (Kind.precedes_iff (h.ordered q) (h.ordered p)).mp hbehind
  have hopen := (Kind.precedes_iff (h.ordered q) (hmask q)).mp hroom
  have hwaits := (h.covered p q hadj hlow hopen).resolve_right id
  exact ⟨hwaits, (h.consistent.queued_iff p).mpr hwaits⟩

/-- For every marker and mask, on whichever side of each other: after the backward sweep alone every
element that lies ahead of a neighbor, which lies behind its own mask, waits in the queue, and the
drain from there empties the queue and ends at the values of the whole reconstruction. -/
theorem drain_sweptBackward_sameValues_reconstruct (mask : Grid α)
    (marker : Vector α mask.shape.len) (kind : Kind) (connectivity : Connectivity)
    (hmask : AllOrdered mask.data) (hmarker : AllOrdered marker) :
    let seeded := sweptBackward kind connectivity mask marker
    let drained := drain kind mask.data (mask.shape.schedule connectivity).neighbors seeded.marker
      seeded.queue
    (∀ p q, mask.shape.Adjacent connectivity p q →
        kind.precedes (seeded.marker.get q) (seeded.marker.get p) = true →
        kind.precedes (seeded.marker.get q) (mask.data.get q) = true →
        p ∈ seeded.queue.toList ∧ seeded.queue.queued.get p = true) ∧
      drained.queue.toList = [] ∧
      ∀ check, (check = true → ∀ p, kind.respects (marker.get p) (mask.data.get p) = true) →
        ∃ result stats,
          (mask.withData marker).reconstructInPlace mask ⟨kind, connectivity, check⟩ =
              (mask.withData result, .ok stats) ∧
            SameValues drained.marker result := by
  intro seeded drained
  have hschedule := Shape.follows_schedule mask.len_lt connectivity
  obtain ⟨hempty, hordered, hlevel⟩ :=
    (drainInvariant_backwardSweep hschedule kind hmask hmarker).drain_spec hmask
      hschedule.mem_neighbors
  obtain ⟨hresultOrdered, hresult⟩ :=
    Grid.propagate_schedule_spec kind connectivity hmask hmarker
  refine ⟨fun p q => mem_queue_sweptBackward hmask hmarker, hempty, ?_⟩
  intro check haccepted
  refine ⟨_, _, Grid.reconstructInPlace_withData haccepted, ?_⟩
  apply sameValues_of_thresholds kind hordered hresultOrdered
  intro t p
  rw [hlevel, hresult]

theorem drain_sweptBackward_meander_sameValues :
    let seeded := sweptBackward .dilation .face Grid.meander (Grid.meanderSeed 9)
    let drained := drain .dilation Grid.meander.data (Grid.meander.shape.schedule .face).neighbors
      seeded.marker seeded.queue
    let first : Fin Grid.meander.shape.len := ⟨0, by decide⟩
    (first ∈ seeded.queue.toList ∧ seeded.queue.queued.get first = true) ∧
      drained.queue.toList = [] ∧
      ∃ result stats,
        (Grid.meander.withData (Grid.meanderSeed 9)).reconstructInPlace Grid.meander
            ⟨.dilation, .face, false⟩ = (Grid.meander.withData result, .ok stats) ∧
          SameValues drained.marker result := by
  dsimp only
  obtain ⟨hseeds, hempty, hresult⟩ := drain_sweptBackward_sameValues_reconstruct Grid.meander
    (Grid.meanderSeed 9) .dilation .face (allOrdered_sample _) (allOrdered_sample _)
  have hseed := hseeds ⟨0, by decide⟩ ⟨1, by decide⟩ (by decide +kernel) (by decide +kernel)
    (by decide +kernel)
  exact ⟨hseed, hempty, hresult false nofun⟩

end Morphology
