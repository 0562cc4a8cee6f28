import Morphology.Operators
import Morphology.Proofs.Propagation.FixedPoint

/-! An accepted marker is reconstructed, and the result holds exactly the thresholds that the marker
reaches under the mask. -/

namespace Morphology.Grid

variable {α : Type} [Pixel α]

omit [Pixel α] in
theorem exists_eq_withData {g h : Grid α} (hshape : g.shape = h.shape) :
    ∃ data, g = h.withData data := by
  cases g
  cases h
  cases hshape
  exact ⟨_, rfl⟩

theorem eq_withData_iff {g : Grid α} {v w : Vector α g.shape.len} :
    (g.withData v).eq (g.withData w) = true ↔ SameValues v w := by
  have hsame : (g.withData v).sameShape (g.withData w) = true := decide_eq_true rfl
  rw [eq, hsame, Bool.true_and, List.all_eq_true]
  constructor
  · intro h i
    apply h (v.get i, w.get i)
    rw [List.mem_iff_getElem]
    exact ⟨i, by simp [withData], by simp [withData, Vector.get]⟩
  · rintro h ⟨a, b⟩ hmem
    rcases List.mem_iff_getElem.mp hmem with ⟨i, hi, hpair⟩
    have hlt : i < g.shape.len := by simpa [withData] using hi
    have hvalues : v.get ⟨i, hlt⟩ = a ∧ w.get ⟨i, hlt⟩ = b := by
      simpa [withData, Vector.get] using hpair
    rw [← hvalues.1, ← hvalues.2]
    exact h ⟨i, hlt⟩

omit [Pixel α] in
theorem zipWith_withData {β γ : Type} (g : Grid α) (f : α → β → γ) (v : Vector α g.shape.len)
    (w : Vector β g.shape.len) :
    (g.withData v).zipWith f ⟨g.shape, g.len_lt, w⟩ = .ok ⟨g.shape, g.len_lt, v.zipWith f w⟩ :=
  dif_pos rfl

variable {mask : Grid α} {marker : Vector α mask.shape.len}

omit [Pixel α] in
theorem maskFor_withData : (mask.withData marker).maskFor mask = .ok mask.data := by
  unfold maskFor withData
  exact dif_pos rfl

theorem validateMarker_withData {kind : Kind}
    (h : ∀ p, kind.respects (marker.get p) (mask.data.get p) = true) :
    (mask.withData marker).validateMarker mask kind = .ok () := by
  have hnone : (mask.withData marker).violation? mask.data kind = none := by
    unfold violation? withData
    rw [List.find?_eq_none]
    intro p _
    simp [h p]
  unfold validateMarker
  rw [maskFor_withData]
  simp only [bind, Except.bind, hnone]
  rfl

/-- Without the check every marker of the mask's layout is accepted, and with it every marker on the
right side of the mask. -/
theorem reconstructInPlace_withData {o : Options}
    (h : o.check = true → ∀ p, o.kind.respects (marker.get p) (mask.data.get p) = true) :
    (mask.withData marker).reconstructInPlace mask o =
      (mask.withData (propagate o.kind (mask.shape.schedule o.connectivity) mask.data marker).1,
        .ok (propagate o.kind (mask.shape.schedule o.connectivity) mask.data marker).2) := by
  have hresult : (mask.withData marker).reconstructWithStats mask o =
      .ok (mask.withData (propagate o.kind (mask.shape.schedule o.connectivity) mask.data marker).1,
        (propagate o.kind (mask.shape.schedule o.connectivity) mask.data marker).2) := by
    unfold reconstructWithStats
    cases hcheck : o.check with
    | false =>
        rw [maskFor_withData]
        rfl
    | true =>
        rw [validateMarker_withData (h hcheck), maskFor_withData]
        rfl
  rw [reconstructInPlace, hresult]

theorem reconstructInPlace_unchecked (mask : Grid α) (marker : Vector α mask.shape.len)
    (kind : Kind) (connectivity : Connectivity) :
    (mask.withData marker).reconstructInPlace mask ⟨kind, connectivity, false⟩ =
      (mask.withData (propagate kind (mask.shape.schedule connectivity) mask.data marker).1,
        .ok (propagate kind (mask.shape.schedule connectivity) mask.data marker).2) :=
  reconstructInPlace_withData (by simp)

theorem reconstruct_withData {o : Options}
    (h : o.check = true → ∀ p, o.kind.respects (marker.get p) (mask.data.get p) = true) :
    (mask.withData marker).reconstruct mask o =
      .ok (mask.withData
        (propagate o.kind (mask.shape.schedule o.connectivity) mask.data marker).1) := by
  rw [reconstruct, reconstructInPlace_withData h]

theorem reconstruct_unchecked (mask : Grid α) (marker : Vector α mask.shape.len) (kind : Kind)
    (connectivity : Connectivity) :
    (mask.withData marker).reconstruct mask ⟨kind, connectivity, false⟩ =
      .ok (mask.withData
        (propagate kind (mask.shape.schedule connectivity) mask.data marker).1) :=
  reconstruct_withData nofun

theorem respects_of_validateMarker_withData {kind : Kind}
    (h : (mask.withData marker).validateMarker mask kind = .ok ()) (p : Fin mask.shape.len) :
    kind.respects (marker.get p) (mask.data.get p) = true := by
  unfold validateMarker at h
  rw [maskFor_withData] at h
  simp only [bind, Except.bind] at h
  split at h
  · next hnone =>
      unfold violation? withData at hnone
      rw [List.find?_eq_none] at hnone
      simpa using hnone p (List.mem_finRange p)
  · cases h

theorem respects_of_reconstruct_withData {o : Options} {output : Grid α}
    (h : (mask.withData marker).reconstruct mask o = .ok output) (hcheck : o.check = true)
    (p : Fin mask.shape.len) : o.kind.respects (marker.get p) (mask.data.get p) = true := by
  apply respects_of_validateMarker_withData
  unfold reconstruct reconstructInPlace reconstructWithStats at h
  rw [hcheck] at h
  cases hvalid : (mask.withData marker).validateMarker mask o.kind with
  | ok accepted => rfl
  | error e =>
      rw [hvalid] at h
      cases h

/-- With or without the check, an accepted marker ends as propagation leaves it. -/
theorem eq_of_reconstruct_withData {o : Options} {output : Grid α}
    (h : (mask.withData marker).reconstruct mask o = .ok output) :
    output = mask.withData
      (propagate o.kind (mask.shape.schedule o.connectivity) mask.data marker).1 := by
  rw [reconstruct_withData (respects_of_reconstruct_withData h), Except.ok.injEq] at h
  exact h.symm

/-- An operator restores the grid from its own marker, if the marker is not checked or lies on the
right side. -/
theorem restoredFrom_eq {kind : Kind} {connectivity : Connectivity} {check : Bool}
    {source : OwnMarker α}
    (hmarker : mask.ownMarker kind connectivity source = .ok (mask.withData marker))
    (hrespects : check = true → ∀ p, kind.respects (marker.get p) (mask.data.get p) = true) :
    mask.restoredFrom kind connectivity check source =
      .ok (mask.withData
        (propagate kind (mask.shape.schedule connectivity) mask.data marker).1) := by
  rw [restoredFrom, hmarker]
  exact reconstruct_withData hrespects

theorem restoredFrom_unchecked {kind : Kind} {connectivity : Connectivity} {source : OwnMarker α}
    (hmarker : mask.ownMarker kind connectivity source = .ok (mask.withData marker)) :
    mask.restoredFrom kind connectivity false source =
      .ok (mask.withData
        (propagate kind (mask.shape.schedule connectivity) mask.data marker).1) :=
  restoredFrom_eq hmarker nofun

theorem propagate_schedule_spec (kind : Kind) (connectivity : Connectivity)
    (hmask : AllOrdered mask.data) (hmarker : AllOrdered marker) :
    let result := (propagate kind (mask.shape.schedule connectivity) mask.data marker).1
    AllOrdered result ∧ ∀ t p, t ≤ levels kind result p ↔
      Reached (mask.shape.Adjacent connectivity) (levels kind mask.data) (levels kind marker) t p :=
  propagate_spec (Shape.follows_schedule mask.len_lt connectivity) kind hmask hmarker

/-- A corridor that turns back on itself, so that the sweeps leave work to the queue. -/
def meander : Grid (Sample .u8) where
  shape := ⟨[5, 3], by decide, by decide, by decide⟩
  len_lt := by decide
  data := #v[5, 5, 5, 0, 0, 5, 5, 5, 5, 5, 0, 0, 5, 5, 5].map (Sample.nearest .u8)

def meanderSeed (value : Int) : Vector (Sample .u8) meander.shape.len :=
  Vector.ofFn fun p => Sample.nearest .u8 (if p.val = 0 then value else 0)

example : (propagate .dilation (meander.shape.schedule .face) meander.data (meanderSeed 3)).2 =
    { forwardUpdates := 4, backwardUpdates := 2, seeds := 1, pops := 5, queueUpdates := 4 } := by
  decide +kernel

theorem respects_meanderSeed (p : Fin meander.shape.len) :
    Kind.dilation.respects ((meanderSeed 3).get p) (meander.data.get p) = true := by
  revert p
  decide +kernel

end Morphology.Grid
