import Mathlib.Data.List.FinRange
import Morphology.Proofs.Shape.Adjacency

/-! Other orientations of a shape: axes counted from their other ends, and axes in another order.
They move the elements about, but those that touch keep touching. -/

namespace Morphology

/-- The distances on the axes that differ. -/
def moves (a b : List Nat) : List Nat :=
  ((displacement a b).map Int.natAbs).filter (· ≠ 0)

theorem forall_mem_moves_iff {a b : List Nat} :
    (∀ m ∈ moves a b, m ≤ 1) ↔ ∀ d ∈ displacement a b, d.natAbs ≤ 1 := by
  simp only [moves, List.mem_filter, List.mem_map]
  constructor
  · intro h d hd
    by_cases hzero : d.natAbs = 0
    · omega
    · exact h d.natAbs ⟨⟨d, hd, rfl⟩, by simpa using hzero⟩
  · rintro h m ⟨⟨d, hd, rfl⟩, _⟩
    exact h d hd

theorem length_moves (a b : List Nat) :
    (moves a b).length = (displacement a b).countP (· ≠ 0) := by
  rw [moves, ← List.countP_eq_length_filter, List.countP_map]
  congr 1
  funext d
  simp

/-- Elements of two shapes touch alike if they lie equally far apart, on whatever axes. -/
theorem adjacent_congr {t s : Shape} {connectivity : Connectivity} {p' q' : Fin t.len}
    {p q : Fin s.len} (h : (moves (t.coordsOf p') (t.coordsOf q')).Perm
      (moves (s.coordsOf p) (s.coordsOf q))) :
    t.Adjacent connectivity p' q' ↔ s.Adjacent connectivity p q := by
  rw [Shape.Adjacent, Shape.Adjacent, ← forall_mem_moves_iff, ← forall_mem_moves_iff]
  cases connectivity <;>
    simp only [Connectivity.keeps, ← length_moves, h.length_eq, h.mem_iff]

theorem displacement_eq_map_zip (a b : List Nat) :
    displacement a b = (a.zip b).map fun axis => (axis.2 : Int) - axis.1 := by
  rw [displacement, List.zip, List.map_zipWith]

namespace Shape

theorem inside_iff_zip {coords dims : List Nat} :
    inside coords dims = true ↔
      coords.length = dims.length ∧ ∀ axis ∈ coords.zip dims, axis.1 < axis.2 := by
  induction coords generalizing dims with
  | nil => cases dims <;> simp [inside]
  | cons c cs ih =>
      cases dims with
      | nil => simp [inside]
      | cons d ds =>
          simp [ih]
          tauto

/-- The coordinates counted from the other end on the axes that are marked. -/
def mirror : List Bool → List Nat → List Nat → List Nat
  | turn :: turns, d :: ds, c :: cs => (if turn then d - 1 - c else c) :: mirror turns ds cs
  | _, _, coords => coords

theorem inside_mirror (turns : List Bool) {coords dims : List Nat}
    (h : inside coords dims = true) : inside (mirror turns dims coords) dims = true := by
  induction h using inside_induction generalizing turns with
  | nil => simp [mirror, inside]
  | cons c d cs ds hc hcs ih =>
      cases turns with
      | nil => simp [mirror, hc, hcs]
      | cons turn turns =>
          simp only [mirror, inside_cons, ih, and_true]
          split <;> omega

theorem mirror_mirror (turns : List Bool) {coords dims : List Nat}
    (h : inside coords dims = true) : mirror turns dims (mirror turns dims coords) = coords := by
  induction h using inside_induction generalizing turns with
  | nil => simp [mirror]
  | cons c d cs ds hc hcs ih =>
      cases turns with
      | nil => simp [mirror]
      | cons turn turns =>
          simp only [mirror, ih, List.cons.injEq, and_true]
          split <;> omega

theorem moves_mirror (turns : List Bool) {a b dims : List Nat} (ha : inside a dims = true)
    (hb : inside b dims = true) :
    moves (mirror turns dims a) (mirror turns dims b) = moves a b := by
  -- On a turned axis the displacement changes its sign.
  suffices h : (displacement (mirror turns dims a) (mirror turns dims b)).map Int.natAbs =
      (displacement a b).map Int.natAbs by rw [moves, h, moves]
  induction ha using inside_induction generalizing b turns with
  | nil => simp [mirror, displacement]
  | cons x d xs ds hx hxs ih =>
      rcases exists_cons_of_inside hb with ⟨y, ys, rfl, hy, hys⟩
      cases turns with
      | nil => simp [mirror]
      | cons turn turns =>
          simp only [mirror, displacement_cons, List.map_cons, ih turns hys, List.cons.injEq,
            and_true]
          split <;> omega

/-- The entry for each axis is that of another axis. -/
def permuteAxes {n : Nat} (σ : Equiv.Perm (Fin n)) (xs : List Nat) : List Nat :=
  List.ofFn fun i => xs.getD (σ i) 0

theorem volume_perm {xs ys : List Nat} (h : xs.Perm ys) : volume xs = volume ys := by
  induction h with
  | nil => rfl
  | cons x _ ih => rw [volume, volume, ih]
  | swap x y xs => simp [volume, Nat.mul_left_comm]
  | trans _ _ ih₁ ih₂ => exact ih₁.trans ih₂

section Permuted

variable {n : Nat} (σ : Equiv.Perm (Fin n)) {xs ys : List Nat}

@[simp] theorem length_permuteAxes (xs : List Nat) : (permuteAxes σ xs).length = n := by
  simp [permuteAxes]

theorem ofFn_getD (h : xs.length = n) : (List.ofFn fun i : Fin n => xs.getD i 0) = xs := by
  subst h
  simp

theorem permuteAxes_symm (h : xs.length = n) :
    permuteAxes σ (permuteAxes σ.symm xs) = xs := by
  have hread (i : Fin n) : (permuteAxes σ.symm xs).getD (σ i) 0 = xs.getD i 0 := by
    simp [permuteAxes]
  rw [permuteAxes]
  simp only [hread]
  exact ofFn_getD h

/-- Two lists permuted alike have the same pairs of entries. -/
theorem zip_permuteAxes_perm (hx : xs.length = n) (hy : ys.length = n) :
    ((permuteAxes σ xs).zip (permuteAxes σ ys)).Perm (xs.zip ys) := by
  have hzip {f g : Fin n → Nat} :
      (List.ofFn f).zip (List.ofFn g) = List.ofFn fun i => (f i, g i) := by
    apply List.ext_getElem <;> simp
  have hplain : xs.zip ys = List.ofFn fun i : Fin n => (xs.getD i 0, ys.getD i 0) := by
    rw [← hzip, ofFn_getD hx, ofFn_getD hy]
  rw [permuteAxes, permuteAxes, hzip, hplain]
  exact Equiv.Perm.ofFn_comp_perm σ fun i => (xs.getD i 0, ys.getD i 0)

theorem permuteAxes_perm (h : xs.length = n) : (permuteAxes σ xs).Perm xs := by
  conv_rhs => rw [← ofFn_getD h]
  exact Equiv.Perm.ofFn_comp_perm σ fun i => xs.getD i 0

theorem inside_permuteAxes {coords dims : List Nat} (hdims : dims.length = n)
    (h : inside coords dims = true) :
    inside (permuteAxes σ coords) (permuteAxes σ dims) = true := by
  have hcoords : coords.length = n := (length_of_inside h).trans hdims
  rw [inside_iff_zip] at h ⊢
  refine ⟨by simp, ?_⟩
  intro axis haxis
  exact h.2 axis ((zip_permuteAxes_perm σ hcoords hdims).mem_iff.mp haxis)

theorem moves_permuteAxes_perm {a b : List Nat} (ha : a.length = n) (hb : b.length = n) :
    (moves (permuteAxes σ a) (permuteAxes σ b)).Perm (moves a b) := by
  simp only [moves, displacement_eq_map_zip]
  exact (((zip_permuteAxes_perm σ ha hb).map _).map _).filter _

end Permuted

def permuted (s : Shape) (σ : Equiv.Perm (Fin s.ndim)) : Shape where
  dims := permuteAxes σ s.dims
  dims_ne_nil := by
    intro hnil
    have hlength := congrArg List.length hnil
    rw [length_permuteAxes] at hlength
    exact s.dims_ne_nil (List.eq_nil_of_length_eq_zero hlength)
  dims_pos := by
    intro d hd
    exact s.dims_pos d ((permuteAxes_perm σ rfl).mem_iff.mp hd)
  volume_lt := by
    rw [volume_perm (permuteAxes_perm σ rfl)]
    exact s.volume_lt

end Shape

/-! ## Rearrangements -/

/-- Each position of one shape comes from a position of another, and positions that lie equally far
apart come from such positions. -/
structure Rearrangement (t s : Shape) where
  toSource : List Nat → List Nat
  ofSource : List Nat → List Nat
  contains_toSource : ∀ coords, t.contains coords = true → s.contains (toSource coords) = true
  contains_ofSource : ∀ coords, s.contains coords = true → t.contains (ofSource coords) = true
  toSource_ofSource : ∀ coords, s.contains coords = true → toSource (ofSource coords) = coords
  moves_perm : ∀ a b, t.contains a = true → t.contains b = true →
    (moves (toSource a) (toSource b)).Perm (moves a b)
  len_eq : t.len = s.len

namespace Rearrangement

variable {t s : Shape}

def source (ρ : Rearrangement t s) (p : Fin t.len) : Fin s.len :=
  ⟨s.indexOfUnchecked (ρ.toSource (t.coordsOf p)),
    Shape.indexOfUnchecked_lt (ρ.contains_toSource _ (Shape.contains_coordsOf p.isLt))⟩

theorem coordsOf_source (ρ : Rearrangement t s) (p : Fin t.len) :
    s.coordsOf (ρ.source p) = ρ.toSource (t.coordsOf p) :=
  Shape.coordsOf_indexOfUnchecked (ρ.contains_toSource _ (Shape.contains_coordsOf p.isLt))

theorem surjective_source (ρ : Rearrangement t s) : Function.Surjective ρ.source := by
  intro q
  have hin : t.contains (ρ.ofSource (s.coordsOf q)) = true :=
    ρ.contains_ofSource _ (Shape.contains_coordsOf q.isLt)
  refine ⟨⟨t.indexOfUnchecked (ρ.ofSource (s.coordsOf q)), Shape.indexOfUnchecked_lt hin⟩, ?_⟩
  apply Shape.eq_of_coordsOf_eq
  rw [coordsOf_source, Shape.coordsOf_indexOfUnchecked hin,
    ρ.toSource_ofSource _ (Shape.contains_coordsOf q.isLt)]

theorem adjacent_iff (ρ : Rearrangement t s) (connectivity : Connectivity) (p q : Fin t.len) :
    t.Adjacent connectivity p q ↔ s.Adjacent connectivity (ρ.source p) (ρ.source q) := by
  apply adjacent_congr
  rw [ρ.coordsOf_source, ρ.coordsOf_source]
  exact (ρ.moves_perm _ _ (Shape.contains_coordsOf p.isLt) (Shape.contains_coordsOf q.isLt)).symm

/-- Values taken along to their places. -/
def data {α : Type} (ρ : Rearrangement t s) (v : Vector α s.len) : Vector α t.len :=
  Vector.ofFn fun p => v.get (ρ.source p)

end Rearrangement

namespace Shape

/-- The marked axes turned round. -/
def mirroring (s : Shape) (turns : List Bool) : Rearrangement s s where
  toSource := mirror turns s.dims
  ofSource := mirror turns s.dims
  contains_toSource _ h := inside_mirror turns h
  contains_ofSource _ h := inside_mirror turns h
  toSource_ofSource _ h := mirror_mirror turns h
  moves_perm a b ha hb := by rw [moves_mirror turns ha hb]
  len_eq := rfl

def permuting (s : Shape) (σ : Equiv.Perm (Fin s.ndim)) : Rearrangement (s.permuted σ) s where
  toSource := permuteAxes σ.symm
  ofSource := permuteAxes σ
  contains_toSource coords h := by
    have hin := inside_permuteAxes σ.symm (length_permuteAxes σ s.dims) h
    have hdims : permuteAxes σ.symm (permuteAxes σ s.dims) = s.dims := permuteAxes_symm σ.symm rfl
    change inside coords (permuteAxes σ s.dims) = true at h
    rwa [hdims] at hin
  contains_ofSource coords h := inside_permuteAxes σ rfl h
  toSource_ofSource coords h := permuteAxes_symm σ.symm (length_of_inside h)
  moves_perm a b ha hb := moves_permuteAxes_perm σ.symm
    ((length_of_inside ha).trans (length_permuteAxes σ s.dims))
    ((length_of_inside hb).trans (length_permuteAxes σ s.dims))
  len_eq := volume_perm (permuteAxes_perm σ rfl)

end Shape

end Morphology
