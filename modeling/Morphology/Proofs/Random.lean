import Morphology.Proofs.Grid.Pictures
import Morphology.Proofs.Reconstruction.Result
import Morphology.Random

/-! Random grids keep to their levels, and random markers are accepted under their masks, whatever
draws the bytes, as long as no draw exceeds its bound. -/

namespace Morphology.Random

variable {σ : Type}

/-- From every state of the source, a draw is at most its bound. -/
def WithinBounds (byteUpTo : Byte → StateM σ Byte) : Prop :=
  ∀ hi state, ((byteUpTo hi).run state).1.val ≤ hi.val

variable {byteUpTo : Byte → StateM σ Byte}

theorem WithinBounds.forall₂_mapM (h : WithinBounds byteUpTo) (bounds : List Byte) (state : σ) :
    List.Forall₂ (fun drawn hi : Byte => drawn.val ≤ hi.val)
      ((bounds.mapM byteUpTo).run state).1 bounds := by
  induction bounds generalizing state with
  | nil => exact .nil
  | cons hi bounds ih =>
      rw [List.mapM_cons]
      exact .cons (h hi state) (ih _)

theorem WithinBounds.exists_drawn (h : WithinBounds byteUpTo) {n : Nat} (bounds : Vector Byte n)
    (state : σ) :
    ∃ drawn : Vector Byte n, ((bounds.toList.mapM byteUpTo).run state).1 = drawn.toList ∧
      ∀ p, (drawn.get p).val ≤ (bounds.get p).val := by
  have hdrawn := h.forall₂_mapM bounds.toList state
  have hlength : ((bounds.toList.mapM byteUpTo).run state).1.length = n := by
    rw [hdrawn.length_eq, Vector.length_toList]
  refine ⟨⟨List.toArray _, hlength⟩, rfl, fun p => ?_⟩
  exact hdrawn.get (i := p) (hlength.symm ▸ p.isLt) (bounds.length_toList.symm ▸ p.isLt)

/-- Dimensions that fit give a grid of values up to the levels. -/
theorem grid_spec (h : WithinBounds byteUpTo) {s : Shape} (small : s.len < Grid.limit)
    (levels : Byte) (state : σ) :
    ∃ data : Vector Byte s.len,
      ((grid byteUpTo s.dims levels).run state).1 = .ok ⟨s, small, data⟩ ∧
        ∀ p, (data.get p).val ≤ levels.val := by
  obtain ⟨data, hdrawn, hbound⟩ := h.exists_drawn (Vector.replicate s.len levels) state
  rw [Vector.toList_replicate] at hdrawn
  refine ⟨data, Grid.ofList_eq_ok_iff.mpr ⟨rfl, hdrawn.symm⟩, fun p => ?_⟩
  simpa [Vector.get] using hbound p

theorem markerBelow_spec (h : WithinBounds byteUpTo) (mask : Grid Byte) (state : σ) :
    ∃ data, ((markerBelow byteUpTo mask).run state).1 = mask.withData data ∧
      ∀ p, (data.get p).val ≤ (mask.data.get p).val := by
  obtain ⟨data, hdrawn, hbound⟩ := h.exists_drawn mask.data state
  rw [← Grid.toList_mapM] at hdrawn
  have hdata : ((mask.data.mapM byteUpTo).run state).1 = data := Vector.toList_inj.mp hdrawn
  exact ⟨data, congrArg mask.withData hdata, hbound⟩

theorem validateMarker_markerBelow (h : WithinBounds byteUpTo) (mask : Grid Byte) (state : σ) :
    ((markerBelow byteUpTo mask).run state).1.validateMarker mask .dilation = .ok () := by
  obtain ⟨data, hdata, hbelow⟩ := markerBelow_spec h mask state
  rw [hdata]
  exact Grid.validateMarker_withData fun p =>
    (Kind.respects_iff (Sample.ordered _) (Sample.ordered _)).mpr (hbelow p)

end Morphology.Random
