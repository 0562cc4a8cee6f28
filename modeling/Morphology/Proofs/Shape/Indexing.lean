import Morphology.Shape.Raster

/-! Coordinates and linear indices number the same positions: each is the other's inverse, and the
lexicographic order of coordinates is the order of indices. -/

namespace Morphology.Shape

theorem ofDims_eq_ok_iff {dims : List Nat} {s : Shape} : ofDims dims = .ok s ↔ s.dims = dims := by
  constructor
  · intro h
    unfold ofDims at h
    split at h
    · cases h
      rfl
    · cases h
  · rintro rfl
    exact dif_pos ⟨s.dims_ne_nil, s.dims_pos, s.volume_lt⟩

@[simp] theorem inside_cons (c d : Nat) (cs ds : List Nat) :
    inside (c :: cs) (d :: ds) = true ↔ c < d ∧ inside cs ds = true := by
  simp [inside]

/-- Coordinates inside consist of one entry below each extent. -/
@[elab_as_elim]
theorem inside_induction {motive : ∀ coords dims : List Nat, inside coords dims = true → Prop}
    (nil : motive [] [] rfl)
    (cons : ∀ (c d : Nat) (cs ds : List Nat) (hc : c < d) (hcs : inside cs ds = true),
      motive cs ds hcs → motive (c :: cs) (d :: ds) ((inside_cons c d cs ds).mpr ⟨hc, hcs⟩))
    {coords dims : List Nat} (h : inside coords dims = true) : motive coords dims h := by
  induction dims generalizing coords with
  | nil =>
      cases coords with
      | nil => exact nil
      | cons c cs => simp [inside] at h
  | cons d ds ih =>
      cases coords with
      | nil => simp [inside] at h
      | cons c cs =>
          have hparts := (inside_cons c d cs ds).mp h
          exact cons c d cs ds hparts.1 hparts.2 (ih hparts.2)

theorem eq_nil_of_inside {coords : List Nat} (h : inside coords [] = true) : coords = [] := by
  cases coords with
  | nil => rfl
  | cons c cs => simp [inside] at h

theorem exists_cons_of_inside {coords ds : List Nat} {d : Nat}
    (h : inside coords (d :: ds) = true) :
    ∃ c cs, coords = c :: cs ∧ c < d ∧ inside cs ds = true := by
  cases coords with
  | nil => simp [inside] at h
  | cons c cs =>
      rw [inside_cons] at h
      exact ⟨c, cs, rfl, h⟩

theorem length_of_inside {coords dims : List Nat} (h : inside coords dims = true) :
    coords.length = dims.length := by
  induction h using inside_induction with
  | nil => rfl
  | cons c d cs ds hc hcs ih => simp [ih]

theorem dot_lt_volume {coords dims : List Nat} (h : inside coords dims = true) :
    dot coords (suffixVolumes dims) < volume dims := by
  induction h using inside_induction with
  | nil => simp [dot, volume]
  | cons c d cs ds hc hcs ih =>
      have hrows : (c + 1) * volume ds ≤ d * volume ds := Nat.mul_le_mul_right _ hc
      rw [Nat.succ_mul] at hrows
      simp only [suffixVolumes, dot, volume]
      omega

theorem inside_digits {dims : List Nat} {index : Nat} (h : index < volume dims) :
    inside (digits (suffixVolumes dims) index) dims = true := by
  induction dims generalizing index with
  | nil => rfl
  | cons d ds ih =>
      have hpos : 0 < volume ds := by
        rcases Nat.eq_zero_or_pos (volume ds) with h0 | hpos
        · simp [volume, h0] at h
        · exact hpos
      rw [suffixVolumes, digits, inside_cons]
      exact ⟨(Nat.div_lt_iff_lt_mul hpos).mpr h, ih (Nat.mod_lt _ hpos)⟩

theorem digits_dot {coords dims : List Nat} (h : inside coords dims = true) :
    digits (suffixVolumes dims) (dot coords (suffixVolumes dims)) = coords := by
  induction h using inside_induction with
  | nil => rfl
  | cons c d cs ds hc hcs ih =>
      have hrest := dot_lt_volume hcs
      have hpos : 0 < volume ds := Nat.zero_lt_of_lt hrest
      have hdiv : (c * volume ds + dot cs (suffixVolumes ds)) / volume ds = c := by
        rw [Nat.mul_comm, Nat.mul_add_div hpos, Nat.div_eq_of_lt hrest, Nat.add_zero]
      have hmod : (c * volume ds + dot cs (suffixVolumes ds)) % volume ds
          = dot cs (suffixVolumes ds) := by
        rw [Nat.mul_comm, Nat.mul_add_mod, Nat.mod_eq_of_lt hrest]
      simp only [suffixVolumes, dot, digits, hdiv, hmod, ih]

/-- The last stride is one, so nothing of an index is lost, even past the end. -/
theorem dot_digits {dims : List Nat} (h : dims ≠ []) (index : Nat) :
    dot (digits (suffixVolumes dims) index) (suffixVolumes dims) = index := by
  induction dims generalizing index with
  | nil => exact absurd rfl h
  | cons d ds ih =>
      cases ds with
      | nil => simp [suffixVolumes, volume, digits, dot]
      | cons e es =>
          rw [suffixVolumes, digits, dot, ih (by simp), Nat.div_add_mod']

variable {s : Shape}

theorem contains_coordsOf {index : Nat} (h : index < s.len) :
    s.contains (s.coordsOf index) = true :=
  inside_digits h

theorem indexOfUnchecked_lt {coords : List Nat} (h : s.contains coords = true) :
    s.indexOfUnchecked coords < s.len :=
  dot_lt_volume h

@[simp] theorem indexOfUnchecked_coordsOf (index : Nat) :
    s.indexOfUnchecked (s.coordsOf index) = index :=
  dot_digits s.dims_ne_nil index

theorem coordsOf_indexOfUnchecked {coords : List Nat} (h : s.contains coords = true) :
    s.coordsOf (s.indexOfUnchecked coords) = coords :=
  digits_dot h

theorem exists_coordsOf_of_contains {coords : List Nat} (h : s.contains coords = true) :
    ∃ p : Fin s.len, s.coordsOf p = coords :=
  ⟨⟨_, indexOfUnchecked_lt h⟩, coordsOf_indexOfUnchecked h⟩

theorem eq_of_coordsOf_eq {p q : Fin s.len} (h : s.coordsOf p = s.coordsOf q) : p = q := by
  have hindex := congrArg s.indexOfUnchecked h
  rw [indexOfUnchecked_coordsOf, indexOfUnchecked_coordsOf] at hindex
  exact Fin.ext hindex

/-- Indices are ordered as positions are, by the first axis on which they differ. -/
theorem dot_lt_dot_iff {a b dims : List Nat} (ha : inside a dims = true)
    (hb : inside b dims = true) :
    dot a (suffixVolumes dims) < dot b (suffixVolumes dims) ↔ a < b := by
  induction ha using inside_induction generalizing b with
  | nil => simp [eq_nil_of_inside hb]
  | cons x d xs ds _ hxs ih =>
      rcases exists_cons_of_inside hb with ⟨y, ys, rfl, _, hys⟩
      have hx := dot_lt_volume hxs
      have hy := dot_lt_volume hys
      simp only [suffixVolumes, dot, List.cons_lt_cons_iff, ← ih hys]
      rcases Nat.lt_trichotomy x y with hxy | rfl | hxy
      · have hrow : (x + 1) * volume ds ≤ y * volume ds := Nat.mul_le_mul_right _ hxy
        rw [Nat.succ_mul] at hrow
        simp only [hxy, true_or, iff_true]
        omega
      · simp
      · have hrow : (y + 1) * volume ds ≤ x * volume ds := Nat.mul_le_mul_right _ hxy
        rw [Nat.succ_mul] at hrow
        constructor
        · intro h
          omega
        · rintro (h | h) <;> omega

theorem coordsOf_lt_iff {p q : Fin s.len} : s.coordsOf p < s.coordsOf q ↔ p < q := by
  have hin (i : Fin s.len) : inside (s.coordsOf i) s.dims = true := contains_coordsOf i.isLt
  have hdot (i : Fin s.len) : dot (s.coordsOf i) (suffixVolumes s.dims) = i :=
    indexOfUnchecked_coordsOf (i : Nat)
  rw [← dot_lt_dot_iff (hin p) (hin q), hdot, hdot, Fin.lt_def]

end Morphology.Shape
