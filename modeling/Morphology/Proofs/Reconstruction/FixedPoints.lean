import Morphology.Proofs.Propagation.Quiet
import Morphology.Proofs.Reconstruction.Result

/-! Fixed points of reconstruction. Without the check a run counts nothing exactly on the markers
that are quiet under their mask; every result is one of them, so reconstruction is idempotent. -/

namespace Morphology

variable {α : Type} [Pixel α]

/-- Without the check all counts are zero exactly if the marker respects its mask and no element
lies behind both a neighbor and its own mask, and then the marker stays as it is. Every output of
reconstruction is such a marker, so a second reconstruction returns it and counts nothing. -/
theorem reconstruct_stats_zero_iff_quiet (mask : Grid α) (marker : Vector α mask.shape.len)
    (kind : Kind) (connectivity : Connectivity) (hmask : AllOrdered mask.data)
    (hmarker : AllOrdered marker) :
    ∃ (result : Vector α mask.shape.len) (stats : Stats),
      (mask.withData marker).reconstructInPlace mask ⟨kind, connectivity, false⟩ =
          (mask.withData result, .ok stats) ∧
        (stats = ⟨0, 0, 0, 0, 0⟩ ↔
          Quiet kind (mask.shape.Adjacent connectivity) mask.data marker) ∧
        (stats = ⟨0, 0, 0, 0, 0⟩ → result = marker) ∧
        ∀ check output,
          (mask.withData marker).reconstruct mask ⟨kind, connectivity, check⟩ = .ok output →
          ∃ values, output = mask.withData values ∧
            Quiet kind (mask.shape.Adjacent connectivity) mask.data values ∧
            ∀ again, output.reconstructInPlace mask ⟨kind, connectivity, again⟩ =
              (output, .ok ⟨0, 0, 0, 0, 0⟩) := by
  have hschedule := Shape.follows_schedule mask.len_lt connectivity
  obtain ⟨hordered, _⟩ := propagate_spec hschedule kind hmask hmarker
  have hquiet := quiet_propagate kind hschedule hmask hmarker
  refine ⟨_, _, Grid.reconstructInPlace_unchecked mask marker kind connectivity,
    stats_propagate_eq_zero_iff hschedule hmask hmarker, marker_propagate_of_stats_eq_zero, ?_⟩
  intro check output houtput
  obtain rfl := Grid.eq_of_reconstruct_withData houtput
  refine ⟨_, rfl, hquiet, ?_⟩
  intro again
  rw [Grid.reconstructInPlace_withData fun _ => hquiet.respects]
  simp only [hquiet.propagate_eq hmask hordered hschedule]

theorem reconstruct_meander_stats_zero_iff_quiet :
    ∃ (result : Vector (Sample .u8) Grid.meander.shape.len) (stats : Stats),
      (Grid.meander.withData (Grid.meanderSeed 9)).reconstructInPlace Grid.meander
          ⟨.dilation, .face, false⟩ = (Grid.meander.withData result, .ok stats) ∧
        (stats = ⟨0, 0, 0, 0, 0⟩ ↔
          Quiet .dilation (Grid.meander.shape.Adjacent .face) Grid.meander.data
            (Grid.meanderSeed 9)) ∧
        (stats = ⟨0, 0, 0, 0, 0⟩ → result = Grid.meanderSeed 9) ∧
        ∀ check output,
          (Grid.meander.withData (Grid.meanderSeed 9)).reconstruct Grid.meander
              ⟨.dilation, .face, check⟩ = .ok output →
          ∃ values, output = Grid.meander.withData values ∧
            Quiet .dilation (Grid.meander.shape.Adjacent .face) Grid.meander.data values ∧
            ∀ again, output.reconstructInPlace Grid.meander ⟨.dilation, .face, again⟩ =
              (output, .ok ⟨0, 0, 0, 0, 0⟩) :=
  reconstruct_stats_zero_iff_quiet Grid.meander (Grid.meanderSeed 9) .dilation .face
    (allOrdered_sample _) (allOrdered_sample _)

end Morphology
