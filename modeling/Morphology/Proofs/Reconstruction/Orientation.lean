import Morphology.Proofs.Propagation.RasterSchedule
import Morphology.Proofs.Reconstruction.Result
import Morphology.Proofs.Shape.UnitAxes

/-! Reconstruction of grids in another orientation. The sweeps of a turned grid meet its elements in
another order and leave other work to the queue, but they end at the turned result. Further axes of
extent one change nothing that the passes see. -/

namespace Morphology

variable {α : Type}

namespace Grid

/-- The values in other places. -/
def rearranged {t : Shape} (g : Grid α) (ρ : Rearrangement t g.shape) : Grid α where
  shape := t
  len_lt := by
    rw [ρ.len_eq]
    exact g.len_lt
  data := ρ.data g.data

theorem get?_rearranged {t : Shape} {g : Grid α} (ρ : Rearrangement t g.shape)
    {coords : List Nat} (h : t.contains coords = true) :
    (g.rearranged ρ).get? coords = g.get? (ρ.toSource coords) := by
  have hsource := ρ.contains_toSource coords h
  have hdata : (ρ.data g.data)[t.indexOfUnchecked coords]? =
      g.data[g.shape.indexOfUnchecked (ρ.toSource coords)]? := by
    rw [Vector.getElem?_eq_getElem (Shape.indexOfUnchecked_lt h),
      Vector.getElem?_eq_getElem (Shape.indexOfUnchecked_lt hsource), Rearrangement.data,
      Vector.getElem_ofFn]
    simp only [Rearrangement.source, Shape.coordsOf_indexOfUnchecked h]
    rfl
  have hinside : (g.rearranged ρ).shape.contains coords = true := h
  rw [get?, get?, Shape.indexOf?, Shape.indexOf?, if_pos hinside, if_pos hsource]
  exact hdata

/-- The marked axes run the other way. -/
def mirrored (g : Grid α) (turns : List Bool) : Grid α := g.rearranged (g.shape.mirroring turns)

theorem get?_mirrored {g : Grid α} (turns : List Bool) {coords : List Nat}
    (h : g.shape.contains coords = true) :
    (g.mirrored turns).get? coords = g.get? (Shape.mirror turns g.dims coords) :=
  get?_rearranged (g.shape.mirroring turns) h

/-- The axes are in another order. -/
def permuted (g : Grid α) (σ : Equiv.Perm (Fin g.shape.ndim)) : Grid α :=
  g.rearranged (g.shape.permuting σ)

theorem get?_permuted {g : Grid α} (σ : Equiv.Perm (Fin g.shape.ndim)) {coords : List Nat}
    (h : g.shape.contains coords = true) :
    (g.permuted σ).get? (Shape.permuteAxes σ coords) = g.get? coords := by
  have hread := get?_rearranged (g.shape.permuting σ) ((g.shape.permuting σ).contains_ofSource _ h)
  rwa [(g.shape.permuting σ).toSource_ofSource _ h] at hread

/-- The same values in the same order, with axes of extent one inserted. -/
def withUnitAxes (g : Grid α) (flags : List Bool) : Grid α where
  shape := g.shape.withUnitAxes flags
  len_lt := by
    rw [Shape.len_withUnitAxes]
    exact g.len_lt
  data := g.data.cast (g.shape.len_withUnitAxes flags).symm

theorem get?_withUnitAxes {g : Grid α} (flags : List Bool) {coords : List Nat}
    (h : g.shape.contains coords = true) :
    (g.withUnitAxes flags).get? (Shape.spread 0 flags coords) = g.get? coords := by
  have hinside : (g.withUnitAxes flags).shape.contains (Shape.spread 0 flags coords) = true :=
    Shape.inside_spread flags h
  have hindex : (g.withUnitAxes flags).shape.indexOfUnchecked (Shape.spread 0 flags coords) =
      g.shape.indexOfUnchecked coords := Shape.dot_spread flags (Shape.length_of_inside h)
  rw [get?, get?, Shape.indexOf?, Shape.indexOf?, if_pos hinside, if_pos h, hindex]
  exact Vector.getElem?_cast (w := (g.shape.len_withUnitAxes flags).symm)

end Grid

variable [Pixel α]

section Rearranged

variable {t s : Shape} {kind : Kind} {mask marker : Vector α s.len}

omit [Pixel α] in
theorem get_data (ρ : Rearrangement t s) (v : Vector α s.len) (p : Fin t.len) :
    (ρ.data v).get p = v.get (ρ.source p) := get_ofFn _ p

theorem allOrdered_data {v : Vector α s.len} (h : AllOrdered v) (ρ : Rearrangement t s) :
    AllOrdered (ρ.data v) := by
  intro p
  rw [get_data]
  exact h _

theorem levels_data (kind : Kind) (ρ : Rearrangement t s) (v : Vector α s.len) :
    levels kind (ρ.data v) = fun p => levels kind v (ρ.source p) := by
  funext p
  rw [levels, get_data, levels]

theorem propagate_data_sameValues (ρ : Rearrangement t s) (kind : Kind)
    (connectivity : Connectivity) (hlen : s.len < Word.half) (hmask : AllOrdered mask)
    (hmarker : AllOrdered marker) :
    SameValues (propagate kind (t.schedule connectivity) (ρ.data mask) (ρ.data marker)).1
      (ρ.data (propagate kind (s.schedule connectivity) mask marker).1) := by
  have hlen' : t.len < Word.half := ρ.len_eq.trans_lt hlen
  obtain ⟨hresult, hreached⟩ := propagate_spec (Shape.follows_schedule hlen connectivity) kind
    hmask hmarker
  obtain ⟨houtput, himage⟩ := propagate_spec (Shape.follows_schedule hlen' connectivity) kind
    (allOrdered_data hmask ρ) (allOrdered_data hmarker ρ)
  apply sameValues_of_thresholds kind houtput (allOrdered_data hresult ρ)
  intro height p
  rw [himage, levels_data, levels_data, levels_data, hreached]
  exact reached_comp_iff ρ.surjective_source (ρ.adjacent_iff connectivity)

end Rearranged

theorem reconstruct_rearranged {mask : Grid α} {marker : Vector α mask.shape.len} {o : Options}
    (hmask : AllOrdered mask.data) (hmarker : AllOrdered marker)
    (hrespects : ∀ p, o.kind.respects (marker.get p) (mask.data.get p) = true) {t : Shape}
    (ρ : Rearrangement t mask.shape) :
    let result := (propagate o.kind (mask.shape.schedule o.connectivity) mask.data marker).1
    ∃ output, ((mask.withData marker).rearranged ρ).reconstruct (mask.rearranged ρ) o = .ok output ∧
      output.eq ((mask.withData result).rearranged ρ) = true := by
  intro result
  have hrespects' (p : Fin t.len) :
      o.kind.respects ((ρ.data marker).get p) ((ρ.data mask.data).get p) = true := by
    rw [get_data, get_data]
    exact hrespects _
  have haccepted :
      ((mask.rearranged ρ).withData (ρ.data marker)).reconstruct (mask.rearranged ρ) o =
        .ok ((mask.rearranged ρ).withData
          (propagate o.kind (t.schedule o.connectivity) (ρ.data mask.data) (ρ.data marker)).1) :=
    Grid.reconstruct_withData fun _ => hrespects'
  refine ⟨_, haccepted, ?_⟩
  exact Grid.eq_withData_iff.mpr
    (propagate_data_sameValues ρ o.kind o.connectivity mask.len_lt hmask hmarker)

/-! ## Axes of extent one -/

theorem propagate_cast {m n : Nat} (h : m = n) {adjacent : Fin m → Fin m → Prop}
    {other : Fin n → Fin n → Prop} [DecidableRel adjacent] [DecidableRel other]
    (hadj : ∀ p q, other p q ↔ adjacent (p.cast h.symm) (q.cast h.symm)) (kind : Kind)
    (mask marker : Vector α m) :
    propagate kind (rasterSchedule other) (mask.cast h) (marker.cast h) =
      ((propagate kind (rasterSchedule adjacent) mask marker).1.cast h,
        (propagate kind (rasterSchedule adjacent) mask marker).2) := by
  subst h
  have hsame : rasterSchedule other = rasterSchedule adjacent := by
    simp only [rasterSchedule, hadj, Fin.cast_eq_self]
  rw [hsame]
  rfl

theorem propagate_withUnitAxes {s : Shape} (flags : List Bool) (kind : Kind)
    (connectivity : Connectivity) (hlen : s.len < Word.half) (mask marker : Vector α s.len) :
    let same := (s.len_withUnitAxes flags).symm
    propagate kind ((s.withUnitAxes flags).schedule connectivity) (mask.cast same)
        (marker.cast same) =
      ((propagate kind (s.schedule connectivity) mask marker).1.cast same,
        (propagate kind (s.schedule connectivity) mask marker).2) := by
  intro same
  rw [Shape.schedule_eq (same.symm.trans_lt hlen), Shape.schedule_eq hlen]
  apply propagate_cast same
  intro p q
  exact Shape.adjacent_withUnitAxes_iff s flags

theorem reconstructInPlace_withUnitAxes {mask : Grid α} {marker : Vector α mask.shape.len}
    {o : Options} (hrespects : ∀ p, o.kind.respects (marker.get p) (mask.data.get p) = true)
    (flags : List Bool) :
    let schedule := mask.shape.schedule o.connectivity
    ((mask.withData marker).withUnitAxes flags).reconstructInPlace (mask.withUnitAxes flags) o =
      ((mask.withData (propagate o.kind schedule mask.data marker).1).withUnitAxes flags,
        .ok (propagate o.kind schedule mask.data marker).2) := by
  intro schedule
  have same := (mask.shape.len_withUnitAxes flags).symm
  have hrespects' (p : Fin (mask.shape.withUnitAxes flags).len) :
      o.kind.respects ((marker.cast same).get p) ((mask.data.cast same).get p) = true :=
    hrespects (p.cast same.symm)
  have hrun := propagate_withUnitAxes flags o.kind o.connectivity mask.len_lt mask.data marker
  have hresult : ((mask.withUnitAxes flags).withData (marker.cast same)).reconstructInPlace
      (mask.withUnitAxes flags) o = _ := Grid.reconstructInPlace_withData fun _ => hrespects'
  apply hresult.trans
  apply Prod.ext
  · exact congrArg (fun run => (mask.withUnitAxes flags).withData run.1) hrun
  · exact congrArg (fun run => Except.ok run.2) hrun

/-- Reconstruction commutes with turning axes round and with permuting them, up to equal values.
Inserting axes of extent one changes neither the data nor any count. -/
theorem reconstruct_orientation (mask : Grid α) (marker : Vector α mask.shape.len) (o : Options)
    (hmask : AllOrdered mask.data) (hmarker : AllOrdered marker)
    (hrespects : ∀ p, o.kind.respects (marker.get p) (mask.data.get p) = true) :
    ∃ (result : Vector α mask.shape.len) (stats : Stats),
      (mask.withData marker).reconstructInPlace mask o = (mask.withData result, .ok stats) ∧
        (∀ turns, ∃ output,
          ((mask.withData marker).mirrored turns).reconstruct (mask.mirrored turns) o =
              .ok output ∧
            output.eq ((mask.withData result).mirrored turns) = true) ∧
        (∀ σ : Equiv.Perm (Fin mask.shape.ndim), ∃ output,
          ((mask.withData marker).permuted σ).reconstruct (mask.permuted σ) o = .ok output ∧
            output.eq ((mask.withData result).permuted σ) = true) ∧
        ∀ flags,
          ((mask.withData marker).withUnitAxes flags).reconstructInPlace
              (mask.withUnitAxes flags) o =
            ((mask.withData result).withUnitAxes flags, .ok stats) := by
  refine ⟨_, _, Grid.reconstructInPlace_withData fun _ => hrespects, ?_, ?_, ?_⟩
  · intro turns
    exact reconstruct_rearranged hmask hmarker hrespects (mask.shape.mirroring turns)
  · intro σ
    exact reconstruct_rearranged hmask hmarker hrespects (mask.shape.permuting σ)
  · intro flags
    exact reconstructInPlace_withUnitAxes hrespects flags

theorem reconstruct_meander_orientation :
    (∀ p, Kind.dilation.respects ((Grid.meanderSeed 3).get p) (Grid.meander.data.get p) = true) ∧
      ∃ (result : Vector (Sample .u8) Grid.meander.shape.len) (stats : Stats),
        (Grid.meander.withData (Grid.meanderSeed 3)).reconstructInPlace Grid.meander
            Options.dilation = (Grid.meander.withData result, .ok stats) ∧
          (∃ output,
            ((Grid.meander.withData (Grid.meanderSeed 3)).mirrored [true, false]).reconstruct
                (Grid.meander.mirrored [true, false]) Options.dilation = .ok output ∧
              output.eq ((Grid.meander.withData result).mirrored [true, false]) = true) ∧
          (∃ output,
            ((Grid.meander.withData (Grid.meanderSeed 3)).permuted Fin.revPerm).reconstruct
                (Grid.meander.permuted Fin.revPerm) Options.dilation = .ok output ∧
              output.eq ((Grid.meander.withData result).permuted Fin.revPerm) = true) ∧
          ((Grid.meander.withData (Grid.meanderSeed 3)).withUnitAxes
              [true, false, true]).reconstructInPlace
                (Grid.meander.withUnitAxes [true, false, true]) Options.dilation =
            ((Grid.meander.withData result).withUnitAxes [true, false, true], .ok stats) := by
  obtain ⟨result, stats, hrun, hmirrored, hpermuted, hunit⟩ := reconstruct_orientation Grid.meander
    (Grid.meanderSeed 3) Options.dilation (allOrdered_sample _) (allOrdered_sample _)
    Grid.respects_meanderSeed
  exact ⟨Grid.respects_meanderSeed, result, stats, hrun, hmirrored _, hpermuted _, hunit _⟩

end Morphology
