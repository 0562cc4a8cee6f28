import Morphology.Proofs.Extrema.Regional
import Morphology.Proofs.Holes.Spill

/-! Filling gives the least of all grids above its input whose regional minima meet the boundary,
and grinding the greatest of all grids below it whose regional maxima do. From every element one can
climb to a regional maximum, so where these meet the boundary every element is joined to it. -/

namespace Morphology

section Support

variable {n : Nat} {adjacent : Fin n → Fin n → Prop} {value other kept : Fin n → Int}
  {target : Set (Fin n)}

/-- Every plateau without a way out meets the target. -/
def Supported (adjacent : Fin n → Fin n → Prop) (value : Fin n → Int) (target : Set (Fin n)) :
    Prop :=
  ∀ p, ¬ PlateauEscapes adjacent value (value p) p →
    ∃ q ∈ target, Linked adjacent {x | value x = value p} p q

theorem exists_linked_summit (adjacent : Fin n → Fin n → Prop) (value : Fin n → Int) (p : Fin n) :
    ∃ m, Linked adjacent {x | value p ≤ value x} p m ∧
      ¬ PlateauEscapes adjacent value (value m) m := by
  have hp : p ∈ {x | value p ≤ value x} := le_refl (value p)
  obtain ⟨m, hm, hmax⟩ := exists_highest adjacent value hp
  refine ⟨m, hm, ?_⟩
  intro hescapes
  obtain ⟨x, hx, y, hxy, hlt⟩ := hescapes
  have hpm : value p ≤ value m := hm.mem_right
  have hxm : value x = value m := hx.mem_right
  have hpx : Linked adjacent {y | value p ≤ value y} p x :=
    hm.trans (hx.mono fun z hz => hpm.trans_eq (Eq.symm hz))
  have hpy : value p ≤ value y := by omega
  have hym : value y ≤ value m := hmax y (Linked.step hpx hxy hpy)
  omega

theorem Supported.exists_linked (h : Supported adjacent value target) (p : Fin n) :
    ∃ q ∈ target, Linked adjacent {x | value p ≤ value x} p q := by
  obtain ⟨m, hm, hsummit⟩ := exists_linked_summit adjacent value p
  obtain ⟨q, hq, hplateau⟩ := h m hsummit
  have hpm : value p ≤ value m := hm.mem_right
  exact ⟨q, hq, hm.trans (hplateau.mono fun x hx => hpm.trans_eq (Eq.symm hx))⟩

section Kept

variable (hkept : ∀ t p, t ≤ kept p ↔ ∃ q ∈ target, Linked adjacent {x | t ≤ value x} p q)

include hkept

theorem supported_kept (hsymm : ∀ x y, adjacent x y → adjacent y x) :
    Supported adjacent kept target := by
  intro p hnone
  obtain ⟨q, hq, hlinked⟩ := (hkept _ p).mp le_rfl
  have hcomponent : ∀ x, Linked adjacent {y | kept p ≤ value y} p x → kept p ≤ kept x :=
    fun x hx => (hkept _ x).mpr ⟨q, hq, (hx.symm hsymm).trans hlinked⟩
  exact ⟨q, hq, linked_plateau hnone (hlinked.of_component hcomponent)⟩

theorem kept_le (p : Fin n) : kept p ≤ value p := by
  obtain ⟨q, _, hlinked⟩ := (hkept _ p).mp le_rfl
  exact hlinked.mem_left

/-- Everything supported that lies below the values lies below what is kept of them. -/
theorem Supported.le_kept (h : Supported adjacent other target) (hle : ∀ x, other x ≤ value x)
    (p : Fin n) : other p ≤ kept p := by
  obtain ⟨q, hq, hlinked⟩ := h.exists_linked p
  exact (hkept _ p).mpr ⟨q, hq, hlinked.mono fun x hx => le_trans hx (hle x)⟩

end Kept

end Support

namespace Grid

variable {α : Type} [Pixel α] {g : Grid α}

/-! ## Extrema that meet the boundary -/

/-- The plateau of every marked element contains an element of the boundary. -/
def MarksMeetBoundary (g : Grid α) (connectivity : Connectivity) (marks : Grid Bool) : Prop :=
  ∀ p : Fin g.shape.len, marks.getLinear? p = some true →
    ∃ q ∈ g.shape.boundary, q ∈ g.plateau connectivity p

theorem regionalExtrema_marksMeetBoundary_iff (kind : Kind) (connectivity : Connectivity)
    (h : AllBounded g.data) :
    (∃ marks, g.regionalExtrema kind connectivity = .ok marks ∧
        g.MarksMeetBoundary connectivity marks) ↔
      Supported (g.shape.Adjacent connectivity) (levels kind g.data) g.shape.boundary := by
  obtain ⟨flags, hextrema, hflags⟩ := regionalExtrema_plateauEscapes kind connectivity h
  have hmarked (p : Fin g.shape.len) :
      (⟨g.shape, g.len_lt, flags⟩ : Grid Bool).getLinear? p = some true ↔
        ¬ PlateauEscapes (g.shape.Adjacent connectivity) (levels kind g.data)
          (levels kind g.data p) p := by
    have hread : (⟨g.shape, g.len_lt, flags⟩ : Grid Bool).getLinear? p = some (flags.get p) :=
      getLinear?_eq_some_get (⟨g.shape, g.len_lt, flags⟩ : Grid Bool) p
    rw [hread, Option.some_inj, hflags]
  simp only [hextrema, Except.ok.injEq, exists_eq_left', MarksMeetBoundary, Supported, hmarked,
    plateau, Set.mem_ofPred_eq, levels, Kind.eq_iff kind (h _).ordered (h _).ordered]

variable {range : IntRange}

def flat (g : Grid (Sample range)) (value : Sample range) : Grid (Sample range) :=
  g.withData (Vector.replicate g.shape.len value)

theorem regionalExtrema_flat_marksMeetBoundary (g : Grid (Sample range)) (value : Sample range)
    (kind : Kind) (connectivity : Connectivity) :
    ∃ marks, (flat g value).regionalExtrema kind connectivity = .ok marks ∧
      (flat g value).MarksMeetBoundary connectivity marks := by
  obtain ⟨flags, hextrema, _⟩ :=
    regionalExtrema_spec (g := flat g value) kind connectivity (allBounded_sample _)
  refine ⟨_, hextrema, ?_⟩
  have hvalue (x : Fin (flat g value).shape.len) : (flat g value).data.get x = value :=
    Vector.getElem_replicate x.isLt
  intro p _
  refine ⟨_, (flat g value).shape.first_mem_boundary, ?_⟩
  refine (Shape.linked_univ connectivity p _).mono fun x _ => ?_
  change Pixel.eq ((flat g value).data.get x) ((flat g value).data.get p) = true
  rw [hvalue, hvalue, Kind.eq_iff .dilation (Sample.ordered value) (Sample.ordered value)]

/-- Of all grids on the near side of the mask whose regional extrema meet the boundary, the one
restored from the boundary reaches furthest. -/
theorem restoredFromBoundary_furthest (g : Grid (Sample range)) (kind : Kind)
    (connectivity : Connectivity) :
    let kept := g.restoredFromBoundary kind connectivity
    (∀ p, levels kind kept p ≤ levels kind g.data p) ∧
      (∃ marks, (g.withData kept).regionalExtrema kind connectivity = .ok marks ∧
        (g.withData kept).MarksMeetBoundary connectivity marks) ∧
      ∀ other, (∀ p, levels kind other p ≤ levels kind g.data p) →
        (∃ marks, (g.withData other).regionalExtrema kind connectivity = .ok marks ∧
          (g.withData other).MarksMeetBoundary connectivity marks) →
        ∀ p, levels kind other p ≤ levels kind kept p := by
  intro kept
  obtain ⟨_, hkept⟩ := restoredFromBoundary_spec g kind connectivity (allBounded_sample g.data)
  have hmeets (data : Vector (Sample range) g.shape.len) :
      (∃ marks, (g.withData data).regionalExtrema kind connectivity = .ok marks ∧
          (g.withData data).MarksMeetBoundary connectivity marks) ↔
        Supported (g.shape.Adjacent connectivity) (levels kind data) g.shape.boundary :=
    regionalExtrema_marksMeetBoundary_iff kind connectivity (allBounded_sample data)
  refine ⟨kept_le hkept, ?_, ?_⟩
  · rw [hmeets]
    exact supported_kept hkept fun _ _ => Shape.Adjacent.symm
  · intro other hle hother p
    rw [hmeets] at hother
    exact hother.le_kept hkept hle p

/-- Filling gives the least grid above its input all of whose regional minima meet the boundary, and
grinding the greatest grid below it all of whose regional maxima do. -/
theorem fillHoles_least_meetingBoundary (g : Grid (Sample range)) (connectivity : Connectivity) :
    (∃ filled, g.fillHoles connectivity = .ok (g.withData filled) ∧
      (∀ p, (g.data.get p).val ≤ (filled.get p).val) ∧
      (∃ minima, (g.withData filled).regionalMinima connectivity = .ok minima ∧
        (g.withData filled).MarksMeetBoundary connectivity minima) ∧
      ∀ other, (∀ p, (g.data.get p).val ≤ (other.get p).val) →
        (∃ minima, (g.withData other).regionalMinima connectivity = .ok minima ∧
          (g.withData other).MarksMeetBoundary connectivity minima) →
        ∀ p, (filled.get p).val ≤ (other.get p).val) ∧
    (∃ ground, g.grindPeaks connectivity = .ok (g.withData ground) ∧
      (∀ p, (ground.get p).val ≤ (g.data.get p).val) ∧
      (∃ maxima, (g.withData ground).regionalMaxima connectivity = .ok maxima ∧
        (g.withData ground).MarksMeetBoundary connectivity maxima) ∧
      ∀ other, (∀ p, (other.get p).val ≤ (g.data.get p).val) →
        (∃ maxima, (g.withData other).regionalMaxima connectivity = .ok maxima ∧
          (g.withData other).MarksMeetBoundary connectivity maxima) →
        ∀ p, (other.get p).val ≤ (ground.get p).val) := by
  have hfilled := restoredFromBoundary_furthest g .erosion connectivity
  have hground := restoredFromBoundary_furthest g .dilation connectivity
  simp only [levels_erosion_sample, neg_le_neg_iff] at hfilled
  exact ⟨⟨_, fillHoles_eq g connectivity, hfilled⟩, ⟨_, grindPeaks_eq g connectivity, hground⟩⟩

theorem fillHoles_pit_least_meetingBoundary :
    (∀ p, (pit.data.get p).val ≤ ((flat pit (Sample.nearest .u8 9)).data.get p).val) ∧
      (∀ p, ((flat pit (Sample.nearest .u8 0)).data.get p).val ≤ (pit.data.get p).val) ∧
      (∃ minima, (flat pit (Sample.nearest .u8 9)).regionalMinima .face = .ok minima ∧
        (flat pit (Sample.nearest .u8 9)).MarksMeetBoundary .face minima) ∧
      (∃ maxima, (flat pit (Sample.nearest .u8 0)).regionalMaxima .face = .ok maxima ∧
        (flat pit (Sample.nearest .u8 0)).MarksMeetBoundary .face maxima) ∧
      (∃ filled, pit.fillHoles .face = .ok (pit.withData filled) ∧
        ∀ p, (filled.get p).val ≤ ((flat pit (Sample.nearest .u8 9)).data.get p).val) ∧
      (∃ ground, pit.grindPeaks .face = .ok (pit.withData ground) ∧
        ∀ p, ((flat pit (Sample.nearest .u8 0)).data.get p).val ≤ (ground.get p).val) := by
  have habove : ∀ p, (pit.data.get p).val ≤ ((flat pit (Sample.nearest .u8 9)).data.get p).val := by
    decide +kernel
  have hbelow : ∀ p, ((flat pit (Sample.nearest .u8 0)).data.get p).val ≤ (pit.data.get p).val := by
    decide +kernel
  have hminima := regionalExtrema_flat_marksMeetBoundary pit (Sample.nearest .u8 9) .erosion .face
  have hmaxima := regionalExtrema_flat_marksMeetBoundary pit (Sample.nearest .u8 0) .dilation .face
  obtain ⟨⟨filled, hfill, _, _, hleast⟩, ⟨ground, hgrind, _, _, hgreatest⟩⟩ :=
    fillHoles_least_meetingBoundary pit .face
  exact ⟨habove, hbelow, hminima, hmaxima, ⟨filled, hfill, hleast _ habove hminima⟩,
    ⟨ground, hgrind, hgreatest _ hbelow hmaxima⟩⟩

end Grid

end Morphology
