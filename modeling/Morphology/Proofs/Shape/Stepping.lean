import Mathlib.Data.List.FinRange
import Morphology.Proofs.Shape.Indexing

/-! Steps of a walk count linear indices up and down, so a walk meets every position once, at its
own coordinates. -/

namespace Morphology.Shape

theorem inside_first {coords dims : List Nat} (h : inside coords dims = true) :
    inside (List.replicate dims.length 0) dims = true := by
  induction h using inside_induction with
  | nil => rfl
  | cons c d cs ds hc hcs ih =>
      rw [List.length_cons, List.replicate_succ, inside_cons]
      exact ⟨Nat.zero_lt_of_lt hc, ih⟩

@[simp] theorem dot_first (n : Nat) (strides : List Nat) :
    dot (List.replicate n 0) strides = 0 := by
  induction n generalizing strides with
  | zero => simp [dot]
  | succ n ih =>
      cases strides with
      | nil => simp [dot, List.replicate_succ]
      | cons s ss => simp [dot, List.replicate_succ, ih]

theorem inside_last {coords dims : List Nat} (h : inside coords dims = true) :
    inside (dims.map (· - 1)) dims = true := by
  induction h using inside_induction with
  | nil => rfl
  | cons c d cs ds hc hcs ih =>
      rw [List.map_cons, inside_cons]
      exact ⟨by omega, ih⟩

theorem dot_last {coords dims : List Nat} (h : inside coords dims = true) :
    dot (dims.map (· - 1)) (suffixVolumes dims) + 1 = volume dims := by
  induction h using inside_induction with
  | nil => rfl
  | cons c d cs ds hc hcs ih =>
      have hrow : (d - 1) * volume ds + volume ds = d * volume ds := by
        rw [← Nat.succ_mul, Nat.succ_eq_add_one, Nat.sub_add_cancel (by omega)]
      simp only [List.map_cons, suffixVolumes, dot, volume]
      omega

/-- A step forward adds one to the index; at the last position every axis starts again. -/
theorem advance_cases {coords dims : List Nat} (h : inside coords dims = true) :
    (∃ next, advance dims coords = (true, next) ∧ inside next dims = true ∧
      dot next (suffixVolumes dims) = dot coords (suffixVolumes dims) + 1) ∨
    (advance dims coords = (false, List.replicate dims.length 0) ∧
      dot coords (suffixVolumes dims) + 1 = volume dims) := by
  induction h using inside_induction with
  | nil => exact .inr ⟨rfl, rfl⟩
  | cons c d cs ds hlt hcs ih =>
      rcases ih with ⟨next, hstep, hin, hdot⟩ | ⟨hstep, hlast⟩
      · refine .inl ⟨c :: next, by simp [advance, hstep], by simp [hlt, hin], ?_⟩
        simp only [suffixVolumes, dot, hdot]
        omega
      · by_cases hc : c + 1 < d
        · refine .inl ⟨(c + 1) :: List.replicate ds.length 0, by simp [advance, hstep, hc],
            by simp [hc, inside_first hcs], ?_⟩
          simp only [suffixVolumes, dot, dot_first, Nat.succ_mul]
          omega
        · refine .inr ⟨by simp [advance, hstep, hc, List.replicate_succ], ?_⟩
          have hd : c + 1 = d := by omega
          simp only [suffixVolumes, dot, volume, ← hd, Nat.succ_mul]
          omega

/-- A step backward takes one from the index; before the first position every axis ends. -/
theorem retreat_cases {coords dims : List Nat} (h : inside coords dims = true) :
    (∃ previous, retreat dims coords = (true, previous) ∧ inside previous dims = true ∧
      dot previous (suffixVolumes dims) + 1 = dot coords (suffixVolumes dims)) ∨
    (retreat dims coords = (false, dims.map (· - 1)) ∧
      dot coords (suffixVolumes dims) = 0) := by
  induction h using inside_induction with
  | nil => exact .inr ⟨rfl, rfl⟩
  | cons c d cs ds hlt hcs ih =>
      rcases ih with ⟨previous, hstep, hin, hdot⟩ | ⟨hstep, hfirst⟩
      · refine .inl ⟨c :: previous, by simp [retreat, hstep], by simp [hlt, hin], ?_⟩
        simp only [suffixVolumes, dot]
        omega
      · by_cases hc : 0 < c
        · refine .inl ⟨(c - 1) :: ds.map (· - 1), by simp [retreat, hstep, hc],
            by simp [inside_last hcs]; omega, ?_⟩
          have hlast := dot_last hcs
          have hrow : (c - 1) * volume ds + volume ds = c * volume ds := by
            rw [← Nat.succ_mul, Nat.succ_eq_add_one, Nat.sub_add_cancel hc]
          simp only [suffixVolumes, dot]
          omega
        · refine .inr ⟨by simp [retreat, hstep, hc], ?_⟩
          have hzero : c = 0 := by omega
          simp [suffixVolumes, dot, hzero, hfirst]

variable {s : Shape}

theorem contains_firstCoords : s.contains s.firstCoords = true :=
  inside_first (contains_coordsOf s.len_pos)

theorem coordsOf_zero : s.coordsOf 0 = s.firstCoords := by
  have h := coordsOf_indexOfUnchecked (s := s) contains_firstCoords
  rwa [indexOfUnchecked, firstCoords, dot_first] at h

theorem coordsOf_last : s.coordsOf (s.len - 1) = s.lastCoords := by
  have hin : s.contains s.lastCoords = true := inside_last (contains_coordsOf s.len_pos)
  have hdot : s.indexOfUnchecked s.lastCoords + 1 = s.len :=
    dot_last (contains_coordsOf s.len_pos)
  rw [← coordsOf_indexOfUnchecked hin, ← hdot, Nat.add_sub_cancel]

theorem advance_coordsOf {index : Nat} (h : index + 1 < s.len) :
    advance s.dims (s.coordsOf index) = (true, s.coordsOf (index + 1)) := by
  have hdot := indexOfUnchecked_coordsOf (s := s) index
  rcases advance_cases (contains_coordsOf (s := s) (by omega : index < s.len)) with
    ⟨next, hstep, hin, hnext⟩ | ⟨_, hlast⟩
  · have hindex : s.indexOfUnchecked next = index + 1 := hnext.trans (congrArg (· + 1) hdot)
    rw [hstep, ← hindex, coordsOf_indexOfUnchecked hin]
  · have hend : s.indexOfUnchecked (s.coordsOf index) + 1 = s.len := hlast
    omega

theorem retreat_coordsOf {index : Nat} (h : index + 1 < s.len) :
    retreat s.dims (s.coordsOf (index + 1)) = (true, s.coordsOf index) := by
  have hdot := indexOfUnchecked_coordsOf (s := s) (index + 1)
  rcases retreat_cases (contains_coordsOf h) with ⟨previous, hstep, hin, hprevious⟩ | ⟨_, hfirst⟩
  · have hindex : s.indexOfUnchecked previous + 1 = index + 1 := hprevious.trans hdot
    rw [hstep, ← Nat.succ.inj hindex, coordsOf_indexOfUnchecked hin]
  · have hbegin : s.indexOfUnchecked (s.coordsOf (index + 1)) = 0 := hfirst
    omega

theorem walk_advance {start n : Nat} (h : start + n ≤ s.len) :
    walk (advance s.dims) n (s.coordsOf start) = (List.range' start n).map s.coordsOf := by
  induction n generalizing start with
  | zero => rfl
  | succ n ih =>
      cases n with
      | zero => rfl
      | succ n =>
          rw [walk, advance_coordsOf (by omega), ih (by omega), List.range'_succ (n := n + 1),
            List.map_cons]

theorem walk_retreat {n : Nat} (h : n < s.len) :
    walk (retreat s.dims) (n + 1) (s.coordsOf n) =
      ((List.range (n + 1)).map s.coordsOf).reverse := by
  induction n with
  | zero => rfl
  | succ n ih =>
      rw [walk, retreat_coordsOf h, ih (by omega), List.range_succ (n := n + 1), List.map_append,
        List.reverse_append]
      rfl

theorem raster_toList : s.raster.toList = (List.range s.len).map s.coordsOf := by
  have h := walk_advance (s := s) (n := s.len) (by omega : 0 + s.len ≤ s.len)
  rw [coordsOf_zero] at h
  simp [raster, h, List.range_eq_range']

theorem antiraster_toList :
    s.antiraster.toList = ((List.range s.len).map s.coordsOf).reverse := by
  have hpos := s.len_pos
  have h := walk_retreat (s := s) (n := s.len - 1) (by omega)
  rw [coordsOf_last, Nat.sub_add_cancel hpos] at h
  simp [antiraster, h]

theorem zipWith_site (indices : List (Fin s.len)) :
    List.zipWith Site.mk indices (indices.map fun index : Fin s.len => s.coordsOf index) =
      indices.map s.site := by
  induction indices with
  | nil => rfl
  | cons index indices ih => simp [ih, site]

theorem map_coordsOf_range :
    (List.range s.len).map s.coordsOf =
      (List.finRange s.len).map fun index : Fin s.len => s.coordsOf index := by
  rw [← List.map_coe_finRange_eq_range, List.map_map]
  rfl

theorem sites_eq : s.sites = (List.finRange s.len).map s.site := by
  rw [sites, raster_toList, map_coordsOf_range, zipWith_site]

theorem sitesBackward_eq : s.sitesBackward = (List.finRange s.len).reverse.map s.site := by
  rw [sitesBackward, antiraster_toList, map_coordsOf_range, ← List.map_reverse, zipWith_site]

end Morphology.Shape
