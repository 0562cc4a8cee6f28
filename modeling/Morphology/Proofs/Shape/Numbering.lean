import Mathlib.Data.Set.Function
import Mathlib.Order.Interval.Set.Defs
import Morphology.Proofs.Shape.Stepping

/-! Linear indices number the coordinates inside a shape in lexicographic order, and steps count
them up and down, around the ends too. -/

namespace Morphology.Shape

variable {s : Shape}

/-- The index of coordinates is the number that leads back to them. -/
theorem indexOf?_eq_some_iff {coords : List Nat} {index : Nat} :
    s.indexOf? coords = some index ↔ index < s.len ∧ s.coordsOf index = coords := by
  rw [indexOf?]
  split
  · next hinside =>
      rw [Option.some.injEq]
      constructor
      · rintro rfl
        exact ⟨indexOfUnchecked_lt hinside, coordsOf_indexOfUnchecked hinside⟩
      · rintro ⟨_, rfl⟩
        exact indexOfUnchecked_coordsOf index
  · next houtside =>
      simp only [reduceCtorEq, false_iff, not_and]
      rintro hindex rfl
      exact houtside (contains_coordsOf hindex)

theorem indexOf?_coordsOf {index : Nat} (h : index < s.len) :
    s.indexOf? (s.coordsOf index) = some index :=
  indexOf?_eq_some_iff.mpr ⟨h, rfl⟩

theorem exists_indexOf?_eq {coords : List Nat} (h : s.contains coords = true) :
    ∃ index, s.indexOf? coords = some index ∧ index < s.len :=
  ⟨_, if_pos h, indexOfUnchecked_lt h⟩

theorem bijOn_indexOf? (s : Shape) :
    Set.BijOn s.indexOf? {coords | s.contains coords = true} (some '' Set.Iio s.len) := by
  refine ⟨?_, ?_, ?_⟩
  · intro coords hcoords
    obtain ⟨index, hindex, hlt⟩ := exists_indexOf?_eq hcoords
    exact ⟨index, hlt, hindex.symm⟩
  · intro a ha b _ hsame
    obtain ⟨index, hindex, _⟩ := exists_indexOf?_eq ha
    have hb := hsame ▸ hindex
    exact (indexOf?_eq_some_iff.mp hindex).2.symm.trans (indexOf?_eq_some_iff.mp hb).2
  · rintro _ ⟨index, hlt, rfl⟩
    exact ⟨s.coordsOf index, contains_coordsOf hlt, indexOf?_coordsOf hlt⟩

theorem lt_iff_of_indexOf?_eq {a b : List Nat} {i j : Nat} (ha : s.indexOf? a = some i)
    (hb : s.indexOf? b = some j) : a < b ↔ i < j := by
  obtain ⟨hi, rfl⟩ := indexOf?_eq_some_iff.mp ha
  obtain ⟨hj, rfl⟩ := indexOf?_eq_some_iff.mp hb
  exact coordsOf_lt_iff (p := ⟨i, hi⟩) (q := ⟨j, hj⟩)

/-- The sum over the first axes never exceeds the sum over all of them. -/
theorem dot_take_le (n : Nat) (coords strides : List Nat) :
    dot (coords.take n) strides ≤ dot coords strides := by
  induction coords generalizing n strides with
  | nil => simp
  | cons c cs ih =>
      cases n with
      | zero => simp [dot]
      | succ n =>
          cases strides with
          | nil => simp [dot]
          | cons d ds => simpa [dot] using ih n ds

theorem dot_take_coordsOf_le (n index : Nat) :
    dot ((s.coordsOf index).take n) s.strides ≤ index :=
  (dot_take_le n _ _).trans_eq (indexOfUnchecked_coordsOf index)

theorem advance_coordsOf_last :
    advance s.dims (s.coordsOf (s.len - 1)) = (false, s.firstCoords) := by
  have hlen := s.len_pos
  have hdot := indexOfUnchecked_coordsOf (s := s) (s.len - 1)
  rcases advance_cases (contains_coordsOf (s := s) (by omega : s.len - 1 < s.len)) with
    ⟨next, _, hin, hnext⟩ | ⟨hstep, _⟩
  · have hlt : s.indexOfUnchecked next < s.len := indexOfUnchecked_lt hin
    have hindex : s.indexOfUnchecked next = s.len - 1 + 1 :=
      hnext.trans (congrArg (· + 1) hdot)
    omega
  · exact hstep

theorem retreat_coordsOf_zero :
    retreat s.dims (s.coordsOf 0) = (false, s.lastCoords) := by
  have hdot := indexOfUnchecked_coordsOf (s := s) 0
  rcases retreat_cases (contains_coordsOf s.len_pos) with ⟨previous, _, _, hprevious⟩ | ⟨hstep, _⟩
  · have hindex : s.indexOfUnchecked previous + 1 = 0 := hprevious.trans hdot
    omega
  · exact hstep

theorem stepForward?_coordsOf (s : Shape) (index : Nat) :
    s.stepForward? (s.coordsOf index) = some (advance s.dims (s.coordsOf index)) := by
  rw [stepForward?, if_neg (by simp [length_coordsOf])]

theorem stepBackward?_coordsOf (s : Shape) (index : Nat) :
    s.stepBackward? (s.coordsOf index) = some (retreat s.dims (s.coordsOf index)) := by
  rw [stepBackward?, if_neg (by simp [length_coordsOf])]

theorem stepForward?_lt {index : Nat} (h : index + 1 < s.len) :
    s.stepForward? (s.coordsOf index) = some (true, s.coordsOf (index + 1)) := by
  rw [stepForward?_coordsOf, advance_coordsOf h]

theorem stepForward?_last :
    s.stepForward? (s.coordsOf (s.len - 1)) = some (false, s.firstCoords) := by
  rw [stepForward?_coordsOf, advance_coordsOf_last]

theorem stepBackward?_succ {index : Nat} (h : index + 1 < s.len) :
    s.stepBackward? (s.coordsOf (index + 1)) = some (true, s.coordsOf index) := by
  rw [stepBackward?_coordsOf, retreat_coordsOf h]

theorem stepBackward?_zero : s.stepBackward? (s.coordsOf 0) = some (false, s.lastCoords) := by
  rw [stepBackward?_coordsOf, retreat_coordsOf_zero]

theorem stepBackward?_stepForward? {coords : List Nat} (h : s.contains coords = true) :
    ∃ more next, s.stepForward? coords = some (more, next) ∧
      s.stepBackward? next = some (more, coords) := by
  obtain ⟨index, hindex, hlt⟩ := exists_indexOf?_eq h
  obtain ⟨_, rfl⟩ := indexOf?_eq_some_iff.mp hindex
  by_cases hend : index + 1 < s.len
  · exact ⟨true, _, stepForward?_lt hend, stepBackward?_succ hend⟩
  · obtain rfl : index = s.len - 1 := by omega
    refine ⟨false, _, stepForward?_last, ?_⟩
    rw [← coordsOf_zero, stepBackward?_zero, coordsOf_last]

theorem stepForward?_stepBackward? {coords : List Nat} (h : s.contains coords = true) :
    ∃ more previous, s.stepBackward? coords = some (more, previous) ∧
      s.stepForward? previous = some (more, coords) := by
  obtain ⟨index, hindex, hlt⟩ := exists_indexOf?_eq h
  obtain ⟨_, rfl⟩ := indexOf?_eq_some_iff.mp hindex
  cases index with
  | zero =>
      refine ⟨false, _, stepBackward?_zero, ?_⟩
      rw [← coordsOf_last, stepForward?_last, coordsOf_zero]
  | succ index => exact ⟨true, _, stepBackward?_succ hlt, stepForward?_lt hlt⟩

/-- The index is a strictly increasing bijection from the coordinates inside a shape onto the
numbers below its length, undone by `coordsOf`, which even past the end gives digits of its number;
no partial sum exceeds the index. Steps count it up and down, from the last position to the first
and back, so each undoes the other. -/
theorem indexOf?_bijective_steps (s : Shape) :
    Set.BijOn s.indexOf? {coords | s.contains coords = true} (some '' Set.Iio s.len) ∧
      (∀ coords, s.contains coords = false → s.indexOf? coords = none) ∧
      (∀ a b i j, s.indexOf? a = some i → s.indexOf? b = some j → (a < b ↔ i < j)) ∧
      (∀ coords index, s.indexOf? coords = some index ↔
        index < s.len ∧ s.coordsOf index = coords) ∧
      (∀ index, s.indexOfUnchecked (s.coordsOf index) = index) ∧
      (∀ n index, dot ((s.coordsOf index).take n) s.strides ≤ index) ∧
      (∀ index, index + 1 < s.len →
        s.stepForward? (s.coordsOf index) = some (true, s.coordsOf (index + 1))) ∧
      s.stepForward? (s.coordsOf (s.len - 1)) = some (false, List.replicate s.ndim 0) ∧
      (∀ index, index + 1 < s.len →
        s.stepBackward? (s.coordsOf (index + 1)) = some (true, s.coordsOf index)) ∧
      s.stepBackward? (s.coordsOf 0) = some (false, s.lastCoords) ∧
      ∀ coords, s.contains coords = true →
        (∃ more next, s.stepForward? coords = some (more, next) ∧
          s.stepBackward? next = some (more, coords)) ∧
        ∃ more previous, s.stepBackward? coords = some (more, previous) ∧
          s.stepForward? previous = some (more, coords) := by
  refine ⟨s.bijOn_indexOf?, ?_, fun _ _ _ _ => lt_iff_of_indexOf?_eq,
    fun _ _ => indexOf?_eq_some_iff, indexOfUnchecked_coordsOf, dot_take_coordsOf_le,
    fun _ => stepForward?_lt, stepForward?_last, fun _ => stepBackward?_succ, stepBackward?_zero,
    ?_⟩
  · intro coords houtside
    rw [indexOf?, houtside]
    rfl
  · intro coords hinside
    exact ⟨stepBackward?_stepForward? hinside, stepForward?_stepBackward? hinside⟩

end Morphology.Shape
