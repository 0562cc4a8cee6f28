import Mathlib.Algebra.Order.BigOperators.Group.Finset
import Morphology.Proofs.Propagation.Components
import Morphology.Proofs.Shape.Adjacency
import Morphology.Proofs.Shape.Axes

/-! Boxes around an element, as far as they lie inside the shape. Faces join every element of a box
to its center, so a box is connected, and so is the whole shape. -/

namespace Morphology

theorem forall_mem_displacement_iff {a b : List Nat} {P : Int → Prop}
    (h : a.length = b.length) (hzero : P 0) :
    (∀ d ∈ displacement a b, P d) ↔ ∀ axis, P ((b.getD axis 0 : Int) - a.getD axis 0) := by
  induction a generalizing b with
  | nil => simp [displacement, List.eq_nil_of_length_eq_zero h.symm, hzero]
  | cons x xs ih =>
      cases b with
      | nil => simp at h
      | cons y ys =>
          rw [displacement_cons, List.forall_mem_cons, ih (by simpa using h)]
          constructor
          · intro hall axis
            cases axis with
            | zero => exact hall.1
            | succ axis => exact hall.2 axis
          · intro hall
            exact ⟨hall 0, fun axis => hall (axis + 1)⟩

theorem countP_displacement_set {coords : List Nat} {axis c j : Nat}
    (hc : coords[axis]? = some c) (hj : j ≠ c) :
    (displacement coords (coords.set axis j)).countP (· ≠ 0) = 1 := by
  induction coords generalizing axis with
  | nil => simp at hc
  | cons x xs ih =>
      cases axis with
      | zero =>
          simp only [List.getElem?_cons_zero, Option.some.injEq] at hc
          have hrest : (displacement xs xs).countP (· ≠ 0) = 0 := by
            rw [List.countP_eq_zero]
            intro d hd
            simp [eq_zero_of_mem_displacement_self hd]
          have hhead : (j : Int) - x ≠ 0 := by omega
          rw [List.set_cons_zero, displacement_cons, List.countP_cons, hrest]
          simp [hhead]
      | succ axis =>
          rw [List.set_cons_succ, displacement_cons, List.countP_cons, ih hc, Int.sub_self]
          simp

namespace Shape

variable {s : Shape} {connectivity : Connectivity}

theorem linked_symm {S : Set (Fin s.len)} {p q : Fin s.len}
    (h : Linked (s.Adjacent connectivity) S p q) : Linked (s.Adjacent connectivity) S q p :=
  h.symm fun _ _ => Adjacent.symm

/-- The second element lies in the box around the first: on every axis their coordinates differ by
at most the radius. -/
def InBox (s : Shape) (radius : Nat) (p q : Fin s.len) : Prop :=
  ∀ d ∈ displacement (s.coordsOf p) (s.coordsOf q), d.natAbs ≤ radius

theorem inBox_iff {radius : Nat} {p q : Fin s.len} :
    s.InBox radius p q ↔
      ∀ axis, ((s.coord q axis : Int) - s.coord p axis).natAbs ≤ radius :=
  forall_mem_displacement_iff (by rw [length_coordsOf, length_coordsOf]) (Nat.zero_le radius)

theorem inBox_self (radius : Nat) (p : Fin s.len) : s.InBox radius p p := by
  intro d hd
  rw [eq_zero_of_mem_displacement_self hd]
  exact Nat.zero_le radius

theorem inBox_zero_iff {p q : Fin s.len} : s.InBox 0 p q ↔ p = q := by
  constructor
  · intro h
    rw [inBox_iff] at h
    apply eq_of_coord_eq
    intro axis
    have := h axis
    omega
  · rintro rfl
    exact inBox_self 0 p

theorem InBox.mono {small large : Nat} {p q : Fin s.len} (h : s.InBox small p q)
    (hle : small ≤ large) : s.InBox large p q :=
  fun d hd => (h d hd).trans hle

theorem InBox.symm {radius : Nat} {p q : Fin s.len} (h : s.InBox radius p q) :
    s.InBox radius q p := by
  rw [inBox_iff] at h ⊢
  intro axis
  have := h axis
  omega

/-- Between two positions inside lies one inside that is no farther from the first than one radius
and no farther from the second than another, if both radii together join them. -/
theorem exists_inside_between {a b : Nat} {start target dims : List Nat}
    (hstart : inside start dims = true) (htarget : inside target dims = true)
    (h : ∀ d ∈ displacement start target, d.natAbs ≤ a + b) :
    ∃ middle, inside middle dims = true ∧ (∀ d ∈ displacement start middle, d.natAbs ≤ a) ∧
      ∀ d ∈ displacement middle target, d.natAbs ≤ b := by
  induction hstart using inside_induction generalizing target with
  | nil =>
      obtain rfl := eq_nil_of_inside htarget
      exact ⟨[], rfl, by simp [displacement], by simp [displacement]⟩
  | cons x d xs ds hx hxs ih =>
      obtain ⟨y, ys, rfl, hy, hys⟩ := exists_cons_of_inside htarget
      rw [displacement_cons, List.forall_mem_cons] at h
      obtain ⟨ms, hms, hfirst, hlast⟩ := ih hys h.2
      -- As far toward the target as the first radius allows.
      obtain ⟨m, hm, hxm, hmy⟩ : ∃ m < d, ((m : Int) - x).natAbs ≤ a ∧ ((y : Int) - m).natAbs ≤ b :=
        ⟨max (x - a) (min y (x + a)), by omega, by omega, by omega⟩
      refine ⟨m :: ms, (inside_cons ..).mpr ⟨hm, hms⟩, ?_, ?_⟩
      · rw [displacement_cons, List.forall_mem_cons]
        exact ⟨hxm, hfirst⟩
      · rw [displacement_cons, List.forall_mem_cons]
        exact ⟨hmy, hlast⟩

/-- The boxes of one radius around all elements of a box together are the box of the sum of both
radii, also where they are clipped. -/
theorem inBox_inBox_iff {a b : Nat} {p q : Fin s.len} :
    (∃ x, s.InBox a p x ∧ s.InBox b x q) ↔ s.InBox (a + b) p q := by
  constructor
  · intro htwice
    obtain ⟨x, hpx, hxq⟩ := htwice
    rw [inBox_iff] at hpx hxq ⊢
    intro axis
    have := hpx axis
    have := hxq axis
    omega
  · intro hbox
    obtain ⟨middle, hinside, hfirst, hlast⟩ :=
      exists_inside_between (contains_coordsOf p.isLt) (contains_coordsOf q.isLt) hbox
    have hcoords : s.coordsOf (s.indexOfUnchecked middle) = middle :=
      coordsOf_indexOfUnchecked hinside
    refine ⟨⟨s.indexOfUnchecked middle, indexOfUnchecked_lt hinside⟩, ?_, ?_⟩
    · rwa [InBox, hcoords]
    · rwa [InBox, hcoords]

/-! ## Steps toward an element -/

/-- An element is no farther than another one from a target, on any axis. -/
def NoFarther (s : Shape) (target p q : Fin s.len) : Prop :=
  ∀ axis, ((s.coord q axis : Int) - s.coord target axis).natAbs ≤
    ((s.coord p axis : Int) - s.coord target axis).natAbs

theorem adjacent_of_moved {axis extent stride j : Nat} (h : s.IsAxis axis extent stride)
    {p q : Fin s.len} (hmoved : s.coordsOf q = (s.coordsOf p).set axis j)
    (hj : j = s.coord p axis + 1 ∨ j + 1 = s.coord p axis) : s.Adjacent connectivity p q := by
  have hunit : ∀ d ∈ displacement (s.coordsOf p) (s.coordsOf q), d.natAbs ≤ 1 := by
    apply inBox_iff.mpr
    intro i
    rw [h.coord_moved hmoved]
    split
    · next hi =>
        subst hi
        omega
    · omega
  have hone : (displacement (s.coordsOf p) (s.coordsOf q)).countP (· ≠ 0) = 1 := by
    rw [hmoved]
    apply countP_displacement_set (h.getElem?_coordsOf p)
    rw [← h.coord_eq]
    omega
  refine ⟨hunit, ?_⟩
  cases connectivity <;> simp only [Connectivity.keeps, hone] <;> decide

theorem exists_adjacent_noFarther (connectivity : Connectivity) {p target : Fin s.len}
    (h : p ≠ target) :
    ∃ q, s.Adjacent connectivity p q ∧ s.NoFarther target p q ∧
      ∃ axis < s.ndim, ((s.coord q axis : Int) - s.coord target axis).natAbs <
        ((s.coord p axis : Int) - s.coord target axis).natAbs := by
  obtain ⟨axis, hne⟩ := not_forall.mp fun hall => h (eq_of_coord_eq hall)
  have haxis : axis < s.ndim := by
    by_contra hout
    exact hne (by rw [coord_eq_zero (not_lt.mp hout), coord_eq_zero (not_lt.mp hout)])
  obtain ⟨extent, stride, his⟩ := isAxis_of_lt haxis
  have hp := his.coord_lt p
  have htarget := his.coord_lt target
  -- One place up or down, to the side on which the target lies.
  obtain ⟨j, hj, hstep, hcloser⟩ : ∃ j < extent,
      (j = s.coord p axis + 1 ∨ j + 1 = s.coord p axis) ∧
        ((j : Int) - s.coord target axis).natAbs <
          ((s.coord p axis : Int) - s.coord target axis).natAbs := by
    rcases Nat.lt_or_gt_of_ne hne with hlt | hlt
    · exact ⟨s.coord p axis + 1, by omega, .inl rfl, by omega⟩
    · exact ⟨s.coord p axis - 1, by omega, .inr (by omega), by omega⟩
  obtain ⟨q, hmoved, _⟩ := his.exists_moved p hj
  have hcoord := his.coord_moved hmoved
  refine ⟨q, adjacent_of_moved his hmoved hstep, ?_, axis, haxis, ?_⟩
  · intro i
    rw [hcoord]
    split
    · next hi =>
        rw [hi]
        exact hcloser.le
    · exact le_rfl
  · rw [hcoord, if_pos rfl]
    exact hcloser

/-- How far two elements lie apart, over all axes. -/
def distance (s : Shape) (p q : Fin s.len) : Nat :=
  ∑ axis ∈ Finset.range s.ndim, ((s.coord p axis : Int) - s.coord q axis).natAbs

theorem linked_noFarther (connectivity : Connectivity) (p target : Fin s.len) :
    Linked (s.Adjacent connectivity) {x | s.NoFarther target p x} p target := by
  induction hdistance : s.distance p target using Nat.strong_induction_on generalizing p with
  | _ bound ih =>
      have hself : s.NoFarther target p p := fun axis => le_rfl
      by_cases hp : p = target
      · rw [← hp]
        exact .self fun axis => le_rfl
      · obtain ⟨q, hadj, hcloser, axis, haxis, hstrict⟩ :=
          exists_adjacent_noFarther connectivity hp
        have hless : s.distance q target < s.distance p target :=
          Finset.sum_lt_sum (fun i _ => hcloser i) ⟨axis, Finset.mem_range.mpr haxis, hstrict⟩
        have hrest := ih _ (hdistance ▸ hless) q rfl
        have hfirst : Linked (s.Adjacent connectivity) {x | s.NoFarther target p x} p q :=
          .step (.self hself) hadj hcloser
        exact hfirst.trans (hrest.mono fun x hx axis => (hx axis).trans (hcloser axis))

/-- A box is connected: every element of it is joined to its center. -/
theorem linked_inBox (connectivity : Connectivity) {radius : Nat} {p q : Fin s.len}
    (h : s.InBox radius p q) :
    Linked (s.Adjacent connectivity) {x | s.InBox radius p x} q p := by
  rw [inBox_iff] at h
  apply (linked_noFarther connectivity q p).mono
  intro x hx
  exact inBox_iff.mpr fun axis => (hx axis).trans (h axis)

theorem linked_univ (connectivity : Connectivity) (p q : Fin s.len) :
    Linked (s.Adjacent connectivity) Set.univ p q :=
  (linked_noFarther connectivity p q).mono (Set.subset_univ _)

end Shape

end Morphology
