import Mathlib.Data.List.GetD
import Morphology.Proofs.Shape.Indexing

/-! One axis of a shape: the coordinate on it is a digit of the linear index, and a move along it
changes the index by multiples of its stride and keeps all other coordinates. -/

namespace Morphology.Shape

theorem mul_dvd_volume {dims : List Nat} {axis extent stride : Nat}
    (hextent : dims[axis]? = some extent) (hstride : (suffixVolumes dims)[axis]? = some stride) :
    extent * stride ∣ volume dims := by
  induction dims generalizing axis with
  | nil => simp at hextent
  | cons d ds ih =>
      cases axis with
      | zero =>
          simp only [suffixVolumes, List.getElem?_cons_zero, Option.some.injEq] at hextent hstride
          subst hextent hstride
          exact Nat.dvd_refl _
      | succ axis =>
          rw [volume]
          exact Nat.dvd_mul_left_of_dvd (ih hextent hstride) d

/-- The digit of an axis is the index in units of the stride, up to whole extents. -/
theorem getElem?_digits {dims : List Nat} {axis extent stride index : Nat}
    (h : index < volume dims) (hextent : dims[axis]? = some extent)
    (hstride : (suffixVolumes dims)[axis]? = some stride) :
    (digits (suffixVolumes dims) index)[axis]? = some (index / stride % extent) := by
  induction dims generalizing axis index with
  | nil => simp at hextent
  | cons d ds ih =>
      have hpos : 0 < volume ds := by
        rw [volume] at h
        exact Nat.pos_of_mul_pos_left (Nat.zero_lt_of_lt h)
      cases axis with
      | zero =>
          simp only [suffixVolumes, List.getElem?_cons_zero, Option.some.injEq] at hextent hstride
          subst hextent hstride
          have hrow : index / volume ds < d := (Nat.div_lt_iff_lt_mul hpos).mpr h
          rw [suffixVolumes, digits, List.getElem?_cons_zero, Nat.mod_eq_of_lt hrow]
      | succ axis =>
          have hdvd : extent * stride ∣ volume ds := mul_dvd_volume hextent hstride
          obtain ⟨k, hk⟩ := hdvd
          have hdigit : index % volume ds / stride % extent = index / stride % extent := by
            rw [hk, Nat.mul_comm extent stride, Nat.mul_assoc, Nat.mod_mul_right_div_self,
              Nat.mod_mul_right_mod]
          rw [suffixVolumes, digits, List.getElem?_cons_succ,
            ih (Nat.mod_lt _ hpos) hextent hstride, hdigit]

theorem dot_set {coords strides : List Nat} {axis c stride : Nat} (hc : coords[axis]? = some c)
    (hstride : strides[axis]? = some stride) (j : Nat) :
    dot (coords.set axis j) strides + c * stride = dot coords strides + j * stride := by
  induction coords generalizing strides axis with
  | nil => simp at hc
  | cons x xs ih =>
      cases strides with
      | nil => simp at hstride
      | cons s ss =>
          cases axis with
          | zero =>
              simp only [List.getElem?_cons_zero, Option.some.injEq] at hc hstride
              rw [List.set_cons_zero, dot, dot, hc, hstride]
              omega
          | succ axis =>
              have hrest := ih hc hstride
              rw [List.set_cons_succ, dot, dot]
              omega

theorem inside_set {coords dims : List Nat} {axis extent j : Nat}
    (h : inside coords dims = true) (hextent : dims[axis]? = some extent) (hj : j < extent) :
    inside (coords.set axis j) dims = true := by
  induction h using inside_induction generalizing axis with
  | nil => simp at hextent
  | cons c d cs ds hc hcs ih =>
      cases axis with
      | zero =>
          simp only [List.getElem?_cons_zero, Option.some.injEq] at hextent
          rw [List.set_cons_zero, inside_cons, hextent]
          exact ⟨hj, hcs⟩
      | succ axis =>
          rw [List.set_cons_succ, inside_cons]
          exact ⟨hc, ih hextent⟩

theorem lt_of_inside {coords dims : List Nat} {axis extent : Nat}
    (h : inside coords dims = true) (hextent : dims[axis]? = some extent) :
    coords.getD axis 0 < extent := by
  induction h using inside_induction generalizing axis with
  | nil => simp at hextent
  | cons c d cs ds hc hcs ih =>
      cases axis with
      | zero =>
          simp only [List.getElem?_cons_zero, Option.some.injEq] at hextent
          rwa [List.getD_cons_zero, ← hextent]
      | succ axis =>
          rw [List.getD_cons_succ]
          exact ih hextent

variable {s : Shape} {axis extent stride : Nat}

/-- An axis with its extent and its stride. -/
structure IsAxis (s : Shape) (axis extent stride : Nat) : Prop where
  extent_eq : s.dims[axis]? = some extent
  stride_eq : s.strides[axis]? = some stride

/-- The coordinate of an element on an axis, zero beyond the last axis. -/
def coord (s : Shape) (index axis : Nat) : Nat := (s.coordsOf index).getD axis 0

/-- The number of places on an axis, one beyond the last axis. -/
def places (s : Shape) (axis : Nat) : Nat := s.dims.getD axis 1

theorem coord_eq_zero {index : Nat} (h : s.ndim ≤ axis) : s.coord index axis = 0 := by
  rw [coord, List.getD_eq_default]
  rwa [length_coordsOf]

theorem eq_of_coord_eq {p q : Fin s.len} (h : ∀ axis, s.coord p axis = s.coord q axis) :
    p = q := by
  apply eq_of_coordsOf_eq
  apply List.ext_getElem (by rw [length_coordsOf, length_coordsOf])
  intro axis hp hq
  have haxis := h axis
  rwa [coord, coord, List.getD_eq_getElem _ _ hp, List.getD_eq_getElem _ _ hq] at haxis

theorem isAxis_of_lt (h : axis < s.ndim) :
    ∃ extent stride, s.IsAxis axis extent stride := by
  have hstrides : axis < s.strides.length := by rwa [strides, length_suffixVolumes]
  exact ⟨_, _, List.getElem?_eq_getElem h, List.getElem?_eq_getElem hstrides⟩

namespace IsAxis

variable (h : s.IsAxis axis extent stride)

include h

theorem lt_ndim : axis < s.ndim := by
  obtain ⟨haxis, _⟩ := List.getElem?_eq_some_iff.mp h.extent_eq
  exact haxis

theorem places_eq : s.places axis = extent := by
  rw [places, List.getD_eq_getElem?_getD, h.extent_eq, Option.getD_some]

theorem mul_dvd_len : extent * stride ∣ s.len :=
  mul_dvd_volume h.extent_eq h.stride_eq

theorem extent_pos : 0 < extent :=
  s.dims_pos extent (List.mem_of_getElem? h.extent_eq)

theorem stride_pos : 0 < stride :=
  Nat.pos_of_mul_pos_left (Nat.pos_of_dvd_of_pos h.mul_dvd_len s.len_pos)

theorem getElem?_coordsOf (p : Fin s.len) :
    (s.coordsOf p)[axis]? = some (p / stride % extent) :=
  getElem?_digits p.isLt h.extent_eq h.stride_eq

theorem coord_eq (p : Fin s.len) : s.coord p axis = p / stride % extent := by
  rw [coord, List.getD_eq_getElem?_getD, h.getElem?_coordsOf, Option.getD_some]

theorem coord_lt (p : Fin s.len) : s.coord p axis < extent :=
  lt_of_inside (contains_coordsOf p.isLt) h.extent_eq

theorem exists_moved (p : Fin s.len) {j : Nat} (hj : j < extent) :
    ∃ q : Fin s.len, s.coordsOf q = (s.coordsOf p).set axis j ∧
      q + s.coord p axis * stride = p + j * stride := by
  have hin : s.contains ((s.coordsOf p).set axis j) = true :=
    inside_set (contains_coordsOf p.isLt) h.extent_eq hj
  refine ⟨⟨s.indexOfUnchecked ((s.coordsOf p).set axis j), indexOfUnchecked_lt hin⟩,
    coordsOf_indexOfUnchecked hin, ?_⟩
  have hdot := dot_set (h.getElem?_coordsOf p) h.stride_eq j
  have hp : dot (s.coordsOf p) s.strides = p := indexOfUnchecked_coordsOf (p : Nat)
  rw [hp, ← h.coord_eq] at hdot
  exact hdot

theorem coord_moved {p q : Fin s.len} {j : Nat}
    (hmoved : s.coordsOf q = (s.coordsOf p).set axis j) (i : Nat) :
    s.coord q i = if i = axis then j else s.coord p i := by
  have haxis : axis < (s.coordsOf p).length := by
    rw [length_coordsOf]
    exact h.lt_ndim
  rw [coord, coord, hmoved, List.getD_eq_getElem?_getD, List.getD_eq_getElem?_getD]
  by_cases hi : i = axis
  · rw [hi, if_pos rfl, List.getElem?_set_self haxis, Option.getD_some]
  · rw [if_neg hi, List.getElem?_set_ne (Ne.symm hi)]

end IsAxis

end Morphology.Shape
