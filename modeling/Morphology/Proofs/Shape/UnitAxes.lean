import Morphology.Proofs.Shape.Rearrangement

/-! Further axes of extent one. They change neither the index of any element nor which elements
touch. -/

namespace Morphology.Shape

/-- The entry is inserted wherever a flag is set; each other flag passes one axis. -/
def spread (entry : Nat) : List Bool → List Nat → List Nat
  | true :: flags, xs => entry :: spread entry flags xs
  | false :: flags, x :: xs => x :: spread entry flags xs
  | _, xs => xs

theorem mem_spread {entry x : Nat} {flags : List Bool} {xs : List Nat}
    (h : x ∈ spread entry flags xs) : x = entry ∨ x ∈ xs := by
  fun_induction spread with
  | case1 flags xs ih =>
      rcases List.mem_cons.mp h with hx | hx
      · exact .inl hx
      · exact ih hx
  | case2 flags y ys ih =>
      rcases List.mem_cons.mp h with hx | hx
      · simp [hx]
      · rcases ih hx with hentry | hmem
        · exact .inl hentry
        · simp [hmem]
  | case3 => exact .inr h

theorem spread_ne_nil (entry : Nat) (flags : List Bool) {xs : List Nat} (h : xs ≠ []) :
    spread entry flags xs ≠ [] := by
  fun_cases spread <;> simp_all

theorem volume_spread (flags : List Bool) (dims : List Nat) :
    volume (spread 1 flags dims) = volume dims := by
  fun_induction spread with
  | case1 flags dims ih => rw [volume, ih, Nat.one_mul]
  | case2 flags d ds ih => rw [volume, ih, volume]
  | case3 => rfl

/-- No index changes, since the coordinate on a new axis is zero. -/
theorem dot_spread (flags : List Bool) {coords dims : List Nat}
    (h : coords.length = dims.length) :
    dot (spread 0 flags coords) (suffixVolumes (spread 1 flags dims)) =
      dot coords (suffixVolumes dims) := by
  induction flags generalizing coords dims with
  | nil => simp [spread]
  | cons flag flags ih =>
      cases flag with
      | true => simp [spread, suffixVolumes, dot, ih h]
      | false =>
          cases coords with
          | nil => simp [spread, dot]
          | cons c cs =>
              cases dims with
              | nil => simp at h
              | cons d ds =>
                  simp [spread, suffixVolumes, dot, volume_spread, ih (Nat.succ.inj h)]

theorem inside_spread (flags : List Bool) {coords dims : List Nat}
    (h : inside coords dims = true) :
    inside (spread 0 flags coords) (spread 1 flags dims) = true := by
  induction flags generalizing coords dims with
  | nil => simpa [spread] using h
  | cons flag flags ih =>
      cases flag with
      | true => simp [spread, ih h]
      | false =>
          cases dims with
          | nil => simp [eq_nil_of_inside h, spread, inside]
          | cons d ds =>
              rcases exists_cons_of_inside h with ⟨c, cs, rfl, hc, hcs⟩
              simp [spread, hc, ih hcs]

theorem moves_spread (flags : List Bool) {a b : List Nat} (h : a.length = b.length) :
    moves (spread 0 flags a) (spread 0 flags b) = moves a b := by
  induction flags generalizing a b with
  | nil => simp [spread]
  | cons flag flags ih =>
      cases flag with
      | true => simpa [spread, moves] using ih h
      | false =>
          cases a with
          | nil => simp [spread, moves, displacement]
          | cons x xs =>
              cases b with
              | nil => simp at h
              | cons y ys =>
                  have hrest := ih (Nat.succ.inj h)
                  simp only [moves] at hrest
                  simp only [spread, moves, displacement_cons, List.map_cons, List.filter_cons,
                    hrest]

def withUnitAxes (s : Shape) (flags : List Bool) : Shape where
  dims := spread 1 flags s.dims
  dims_ne_nil := spread_ne_nil 1 flags s.dims_ne_nil
  dims_pos := by
    intro d hd
    rcases mem_spread hd with rfl | hd
    · exact Nat.one_pos
    · exact s.dims_pos d hd
  volume_lt := by
    rw [volume_spread]
    exact s.volume_lt

variable (s : Shape) (flags : List Bool)

theorem len_withUnitAxes : (s.withUnitAxes flags).len = s.len := volume_spread flags s.dims

theorem coordsOf_withUnitAxes {index : Nat} (h : index < s.len) :
    (s.withUnitAxes flags).coordsOf index = spread 0 flags (s.coordsOf index) := by
  have hin : inside (s.coordsOf index) s.dims = true := contains_coordsOf h
  have hindex : (s.withUnitAxes flags).indexOfUnchecked (spread 0 flags (s.coordsOf index)) =
      index :=
    (dot_spread flags (length_of_inside hin)).trans (indexOfUnchecked_coordsOf index)
  have hcoords := coordsOf_indexOfUnchecked (s := s.withUnitAxes flags) (inside_spread flags hin)
  rwa [hindex] at hcoords

theorem adjacent_withUnitAxes_iff {connectivity : Connectivity}
    {p q : Fin (s.withUnitAxes flags).len} :
    (s.withUnitAxes flags).Adjacent connectivity p q ↔
      s.Adjacent connectivity (p.cast (s.len_withUnitAxes flags))
        (q.cast (s.len_withUnitAxes flags)) := by
  have hlt (i : Fin (s.withUnitAxes flags).len) : i.val < s.len :=
    i.isLt.trans_eq (s.len_withUnitAxes flags)
  apply adjacent_congr
  rw [coordsOf_withUnitAxes s flags (hlt p), coordsOf_withUnitAxes s flags (hlt q),
    moves_spread flags (by rw [length_coordsOf, length_coordsOf])]
  exact List.Perm.refl _

end Morphology.Shape
