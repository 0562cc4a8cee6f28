import Morphology.Proofs.Propagation.Counts
import Morphology.Proofs.Reconstruction.Result

/-! What the counts of a reconstruction say about its work, whether or not the marker respects its
mask. -/

namespace Morphology

variable {α : Type} [Pixel α]

/-- Without the check every reconstruction succeeds, and its counts account for its work: for every
element that has changed there is an update, without changes there is none, no sweep counts more
than the elements, and the queue is worked off completely and never in vain. -/
theorem reconstruct_stats_accounted (mask : Grid α) (marker : Vector α mask.shape.len)
    (kind : Kind) (connectivity : Connectivity) (hmask : AllOrdered mask.data)
    (hmarker : AllOrdered marker) :
    ∃ (result : Vector α mask.shape.len) (stats : Stats),
      (mask.withData marker).reconstructInPlace mask ⟨kind, connectivity, false⟩ =
          (mask.withData result, .ok stats) ∧
        Accounted marker result stats := by
  obtain ⟨hforward, hbackward⟩ := Shape.nodup_schedule mask.shape connectivity
  have hschedule := Shape.follows_schedule mask.len_lt connectivity
  exact ⟨_, _, Grid.reconstructInPlace_unchecked mask marker kind connectivity,
    accounted_propagate hschedule hforward hbackward kind hmask hmarker⟩

theorem reconstruct_meander_stats_accounted :
    AllOrdered Grid.meander.data ∧ AllOrdered (Grid.meanderSeed 9) ∧
      ∃ (result : Vector (Sample .u8) Grid.meander.shape.len) (stats : Stats),
        (Grid.meander.withData (Grid.meanderSeed 9)).reconstructInPlace Grid.meander
            ⟨.dilation, .face, false⟩ = (Grid.meander.withData result, .ok stats) ∧
          Accounted (Grid.meanderSeed 9) result stats :=
  ⟨allOrdered_sample _, allOrdered_sample _,
    reconstruct_stats_accounted Grid.meander (Grid.meanderSeed 9) .dilation .face
      (allOrdered_sample _) (allOrdered_sample _)⟩

end Morphology
