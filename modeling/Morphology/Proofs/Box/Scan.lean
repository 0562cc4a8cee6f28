import Morphology.Proofs.Box.Lines
import Morphology.Proofs.Reconstruction.Result
import Morphology.Proofs.Shape.Boxes

/-! Filtering one axis after another scans boxes: after each axis the window is a box on the axes
seen so far and a single place on the others. A box that sticks out of the shape is padded. -/

namespace Morphology

variable {s : Shape} {radius axis extent stride : Nat}

theorem Shape.IsAxis.place_eq (h : s.IsAxis axis extent stride) (p : Fin s.len) :
    place extent stride p = s.coord p axis :=
  (h.coord_eq p).symm

theorem Shape.IsAxis.lineStart_eq_iff (h : s.IsAxis axis extent stride) {p q : Fin s.len} :
    lineStart extent stride q = lineStart extent stride p ↔
      ∀ i, i ≠ axis → s.coord q i = s.coord p i := by
  have hfirst (x : Fin s.len) : ∃ y : Fin s.len, y = lineStart extent stride x ∧
      ∀ i, s.coord y i = if i = axis then 0 else s.coord x i := by
    obtain ⟨y, hmoved, hindex⟩ := h.exists_moved x h.extent_pos
    rw [Nat.zero_mul, Nat.add_zero] at hindex
    refine ⟨y, ?_, h.coord_moved hmoved⟩
    rw [lineStart, h.place_eq]
    omega
  obtain ⟨p', hp, hcoordp⟩ := hfirst p
  obtain ⟨q', hq, hcoordq⟩ := hfirst q
  rw [← hp, ← hq, ← Fin.ext_iff]
  constructor
  · rintro rfl i hi
    have hi' := hcoordp i
    rw [hcoordq, if_neg hi, if_neg hi] at hi'
    exact hi'
  · intro hsame
    apply Shape.eq_of_coord_eq
    intro i
    rw [hcoordp, hcoordq]
    split
    · rfl
    · next hi => exact hsame i hi

theorem onLine_iff (h : s.IsAxis axis extent stride) {p q : Fin s.len} :
    OnLine extent stride radius p q ↔
      (∀ i, i ≠ axis → s.coord q i = s.coord p i) ∧
        ((s.coord q axis : Int) - s.coord p axis).natAbs ≤ radius := by
  rw [OnLine, h.lineStart_eq_iff, h.place_eq, h.place_eq, and_congr_right_iff]
  omega

/-- The box on the first axes, and the same place on the others. -/
def Shape.InBoxOn (s : Shape) (radius axes : Nat) (p q : Fin s.len) : Prop :=
  ∀ i, if i < axes then ((s.coord q i : Int) - s.coord p i).natAbs ≤ radius
    else s.coord q i = s.coord p i

theorem inBoxOn_zero_iff {p q : Fin s.len} : s.InBoxOn radius 0 p q ↔ p = q := by
  constructor
  · intro h
    exact Shape.eq_of_coord_eq fun i => (h i).symm
  · rintro rfl i
    simp

theorem inBoxOn_ndim_iff {p q : Fin s.len} :
    s.InBoxOn radius s.ndim p q ↔ s.InBox radius p q := by
  rw [Shape.inBox_iff]
  apply forall_congr'
  intro i
  split
  · rfl
  · next hi =>
      rw [Shape.coord_eq_zero (not_lt.mp hi), Shape.coord_eq_zero (not_lt.mp hi)]
      simp

theorem inBoxOn_succ_iff (h : s.IsAxis axis extent stride) {p q : Fin s.len} :
    (∃ x, OnLine extent stride radius p x ∧ s.InBoxOn radius axis x q) ↔
      s.InBoxOn radius (axis + 1) p q := by
  simp only [onLine_iff h]
  constructor
  · rintro ⟨x, ⟨hsame, hnear⟩, hbox⟩ i
    have hi := hbox i
    rcases Nat.lt_trichotomy i axis with hlt | rfl | hgt
    · rw [if_pos hlt, hsame i hlt.ne] at hi
      rwa [if_pos (by omega)]
    · rw [if_neg (lt_irrefl _)] at hi
      rwa [if_pos (by omega), hi]
    · rw [if_neg (by omega), hsame i hgt.ne'] at hi
      rwa [if_neg (by omega)]
  · intro hbox
    obtain ⟨x, hmoved, _⟩ := h.exists_moved p (h.coord_lt q)
    have hcoord := h.coord_moved hmoved
    refine ⟨x, ⟨fun i hi => by rw [hcoord, if_neg hi], ?_⟩, ?_⟩
    · have hown := hbox axis
      rw [if_pos (Nat.lt_succ_self axis)] at hown
      rwa [hcoord, if_pos rfl]
    · intro i
      have hi := hbox i
      rw [hcoord]
      rcases Nat.lt_trichotomy i axis with hlt | rfl | hgt
      · rw [if_pos (by omega)] at hi
        rwa [if_pos hlt, if_neg hlt.ne]
      · rw [if_neg (lt_irrefl _), if_pos rfl]
      · rw [if_neg (by omega)] at hi
        rwa [if_neg (by omega), if_neg hgt.ne']

/-! ## Boxes that stick out -/

/-- On one of the first axes, if it has more than one place, the box around an element has places
outside the shape. -/
def Shape.ClippedOn (s : Shape) (radius axes : Nat) (p : Fin s.len) : Prop :=
  ∃ i < axes, s.places i ≠ 1 ∧
    (s.coord p i < radius ∨ s.places i ≤ s.coord p i + radius)

def Shape.Clipped (s : Shape) (radius : Nat) (p : Fin s.len) : Prop :=
  s.ClippedOn radius s.ndim p

theorem not_clipped_zero (p : Fin s.len) : ¬ s.Clipped 0 p := by
  rintro ⟨i, hi, _, hnear | hfar⟩
  · exact Nat.not_lt_zero _ hnear
  · obtain ⟨extent, stride, his⟩ := Shape.isAxis_of_lt hi
    rw [his.places_eq] at hfar
    exact (his.coord_lt p).not_ge hfar

theorem nearEnd_iff (h : s.IsAxis axis extent stride) (p : Fin s.len) :
    NearEnd extent stride radius p ↔
      s.coord p axis < radius ∨ s.places axis ≤ s.coord p axis + radius := by
  rw [NearEnd, h.place_eq, h.places_eq]

theorem clippedOn_succ_iff (h : s.IsAxis axis extent stride) (p : Fin s.len) :
    ((∃ x, OnLine extent stride radius p x ∧ s.ClippedOn radius axis x) ∨
        extent ≠ 1 ∧ NearEnd extent stride radius p) ↔
      s.ClippedOn radius (axis + 1) p := by
  simp only [onLine_iff h, nearEnd_iff h]
  rw [← h.places_eq]
  constructor
  · rintro (⟨x, ⟨hsame, _⟩, i, hi, hextent, hout⟩ | hlast)
    · rw [hsame i hi.ne] at hout
      exact ⟨i, by omega, hextent, hout⟩
    · exact ⟨axis, Nat.lt_succ_self axis, hlast⟩
  · rintro ⟨i, hi, hout⟩
    rcases Nat.lt_succ_iff_lt_or_eq.mp hi with hlt | rfl
    · exact .inl ⟨p, ⟨fun _ _ => rfl, by simp⟩, i, hlt, hout⟩
    · exact .inr hout

namespace Grid

variable {α : Type} [Pixel α]

theorem foldl_filterAxis_padded (g : Grid α) (kind : Kind) (radius : Nat)
    (h : AllOrdered g.data) (hidentity : Pixel.Ordered (kind.identity : α)) {axes : Nat}
    (haxes : axes ≤ g.shape.ndim) :
    Padded kind (g.shape.InBoxOn radius axes) (g.shape.ClippedOn radius axes) g.data
      (((g.shape.dims.zip g.shape.strides).take axes).foldl (filterAxis kind radius) g.data) := by
  induction axes with
  | zero =>
      apply (Padded.refl kind h).congr
      · intro p q
        exact inBoxOn_zero_iff.symm
      · intro p
        simp [Shape.ClippedOn]
  | succ axis ih =>
      obtain ⟨extent, stride, his⟩ := Shape.isAxis_of_lt haxes
      have hpair : (g.shape.dims.zip g.shape.strides)[axis]? = some (extent, stride) := by
        rw [List.getElem?_zip_eq_some]
        exact ⟨his.extent_eq, his.stride_eq⟩
      have hsofar := ih (by omega)
      have hnext := filterAxis_padded his.stride_pos his.extent_pos his.mul_dvd_len kind radius
        hsofar.ordered hidentity
      rw [List.take_add_one, hpair, List.foldl_append]
      apply (hsofar.trans hnext).congr
      · intro p q
        exact inBoxOn_succ_iff his
      · intro p
        exact clippedOn_succ_iff his p

/-- The filter succeeds for every radius that is not too large, and its windows are the boxes as far
as they lie inside, padded where they stick out. -/
theorem filterBox_padded (g : Grid α) (kind : Kind) {radius : Nat} (hradius : radius ≤ maxRadius)
    (h : AllOrdered g.data) (hidentity : Pixel.Ordered (kind.identity : α)) :
    ∃ result, g.filterBox radius kind = .ok (g.withData result) ∧
      Padded kind (g.shape.InBox radius) (g.shape.Clipped radius) g.data result := by
  rw [filterBox, if_neg (not_lt.mpr hradius)]
  split
  · next hzero =>
      refine ⟨g.data, rfl, (Padded.refl kind h).congr ?_ ?_⟩
      · intro p q
        rw [hzero]
        exact Shape.inBox_zero_iff.symm
      · intro p
        rw [hzero]
        exact (iff_false_intro (not_clipped_zero p)).symm
  · have hscan := foldl_filterAxis_padded g kind radius h hidentity le_rfl
    have hlength : (g.shape.dims.zip g.shape.strides).length ≤ g.shape.ndim := by
      rw [List.length_zip]
      exact min_le_left _ _
    rw [List.take_of_length_le hlength] at hscan
    exact ⟨_, rfl, hscan.congr (fun p q => inBoxOn_ndim_iff) fun p => Iff.rfl⟩

/-- Bounded values are filtered by their boxes alone. -/
theorem filterBox_filtered (g : Grid α) (kind : Kind) {radius : Nat} (hradius : radius ≤ maxRadius)
    (h : AllBounded g.data) :
    ∃ result, g.filterBox radius kind = .ok (g.withData result) ∧
      Filtered kind (g.shape.InBox radius) g.data result := by
  obtain ⟨result, hfilter, hresult⟩ := filterBox_padded g kind hradius h.allOrdered
    ((h ⟨0, g.shape.len_pos⟩).ordered_identity kind)
  exact ⟨result, hfilter, hresult.filtered h (Shape.inBox_self radius)⟩

/-- Erosion gives every element the least value of its box as far as the box lies inside, dilation
the greatest, for every accepted radius and on all axes at once. -/
theorem filterBox_isFurthest_inBox (g : Grid α) {radius : Nat} (hradius : radius ≤ maxRadius)
    (h : AllBounded g.data) :
    (∃ eroded, g.erodeBox radius = .ok (g.withData eroded) ∧
      ∀ p, IsFurthest .erosion {a | ∃ q, g.shape.InBox radius p q ∧ g.data.get q = a}
        (eroded.get p)) ∧
    (∃ dilated, g.dilateBox radius = .ok (g.withData dilated) ∧
      ∀ p, IsFurthest .dilation {a | ∃ q, g.shape.InBox radius p q ∧ g.data.get q = a}
        (dilated.get p)) := by
  obtain ⟨eroded, herode, heroded⟩ := filterBox_filtered g .erosion hradius h
  obtain ⟨dilated, hdilate, hdilated⟩ := filterBox_filtered g .dilation hradius h
  exact ⟨⟨eroded, herode, heroded.isFurthest h.allOrdered⟩,
    ⟨dilated, hdilate, hdilated.isFurthest h.allOrdered⟩⟩

theorem filterBox_meander_isFurthest :
    2 ≤ maxRadius ∧ AllBounded meander.data ∧
      (∃ eroded, meander.erodeBox 2 = .ok (meander.withData eroded) ∧
        ∀ p, IsFurthest .erosion {a | ∃ q, meander.shape.InBox 2 p q ∧ meander.data.get q = a}
          (eroded.get p)) ∧
      (∃ dilated, meander.dilateBox 2 = .ok (meander.withData dilated) ∧
        ∀ p, IsFurthest .dilation {a | ∃ q, meander.shape.InBox 2 p q ∧ meander.data.get q = a}
          (dilated.get p)) :=
  ⟨by decide, allBounded_sample _,
    filterBox_isFurthest_inBox meander (by decide) (allBounded_sample _)⟩

end Grid

end Morphology
