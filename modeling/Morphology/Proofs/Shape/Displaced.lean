import Morphology.Proofs.Shape.Adjacency
import Morphology.Proofs.Shape.Numbering

/-! Coordinates displaced by an offset, as exact integers. Where they lie inside, the linear
distance of the offset leads to their index. -/

namespace Morphology

/-- The sums of coordinates and an offset, axis by axis. -/
def displaced (coords : List Nat) (offset : List Int) : List Int :=
  List.zipWith (fun (c : Nat) (o : Int) => c + o) coords offset

@[simp] theorem displaced_nil (offset : List Int) : displaced [] offset = [] := by
  cases offset <;> rfl

@[simp] theorem displaced_cons (c : Nat) (cs : List Nat) (o : Int) (os : List Int) :
    displaced (c :: cs) (o :: os) = (c + o) :: displaced cs os := rfl

theorem displaced_displacement {a b : List Nat} (h : a.length = b.length) :
    displaced a (displacement a b) = b.map fun c : Nat => (c : Int) := by
  induction a generalizing b with
  | nil => simp [List.eq_nil_of_length_eq_zero h.symm]
  | cons x xs ih =>
      cases b with
      | nil => simp at h
      | cons y ys =>
          have hrest := ih (by simpa using h)
          simp [hrest]

theorem displacement_displaced {coords : List Nat} {offset : List Int}
    (hlength : offset.length = coords.length) (hnonneg : ∀ x ∈ displaced coords offset, 0 ≤ x) :
    displacement coords ((displaced coords offset).map Int.toNat) = offset := by
  induction coords generalizing offset with
  | nil => simp [List.eq_nil_of_length_eq_zero hlength, displacement]
  | cons c cs ih =>
      cases offset with
      | nil => simp at hlength
      | cons o os =>
          simp only [displaced_cons, List.mem_cons, forall_eq_or_imp] at hnonneg
          have hrest := ih (by simpa using hlength) hnonneg.2
          have hfirst : ((c + o).toNat : Int) - c = o := by omega
          rw [displaced_cons, List.map_cons, displacement_cons, hrest, hfirst]

/-- The raw index that an offset leads to, in machine words. -/
def Offset.target (offset : Offset) (index : Nat) : Nat :=
  Word.unsigned (Word.signed index + offset.linear)

namespace Shape

variable {s : Shape}

def Encloses (s : Shape) (coords : List Int) : Prop :=
  List.Forall₂ (fun (x : Int) (d : Nat) => 0 ≤ x ∧ x < d) coords s.dims

theorem encloses_iff {coords : List Int} :
    s.Encloses coords ↔ (∀ x ∈ coords, 0 ≤ x) ∧ s.contains (coords.map Int.toNat) = true := by
  unfold Encloses contains
  generalize s.dims = dims
  induction coords generalizing dims with
  | nil => cases dims <;> simp [inside]
  | cons x xs ih =>
      cases dims with
      | nil => simp [inside]
      | cons d ds =>
          have hx : 0 ≤ x → (x.toNat < d ↔ x < d) := by omega
          simp only [List.forall₂_cons, ih, List.mem_cons, forall_eq_or_imp, List.map_cons,
            inside_cons]
          tauto

theorem encloses_displaced_iff {p : Fin s.len} {delta : List Int}
    (hlength : delta.length = s.ndim) :
    s.Encloses (displaced (s.coordsOf p) delta) ↔
      ∃ q : Fin s.len, displacement (s.coordsOf p) (s.coordsOf q) = delta := by
  rw [encloses_iff]
  constructor
  · rintro ⟨hnonneg, hinside⟩
    refine ⟨⟨_, indexOfUnchecked_lt hinside⟩, ?_⟩
    rw [coordsOf_indexOfUnchecked hinside]
    exact displacement_displaced (by rw [hlength, length_coordsOf]) hnonneg
  · rintro ⟨q, rfl⟩
    rw [displaced_displacement (by rw [length_coordsOf, length_coordsOf])]
    refine ⟨by simp, ?_⟩
    simpa [Function.comp_def] using contains_coordsOf q.isLt

theorem indexOf?_displaced {p q : Fin s.len} {delta : List Int}
    (h : displacement (s.coordsOf p) (s.coordsOf q) = delta) :
    s.indexOf? ((displaced (s.coordsOf p) delta).map Int.toNat) = some (q : Nat) := by
  have hcoords : (displaced (s.coordsOf p) delta).map Int.toNat = s.coordsOf q := by
    rw [← h, displaced_displacement (by rw [length_coordsOf, length_coordsOf])]
    simp [Function.comp_def]
  rw [hcoords, indexOf?_coordsOf q.isLt]

/-- The checked neighbor is that of the displaced coordinates, which may lie outside but not before
the first of an axis. -/
theorem neighborIndex?_eq {coords : List Nat} {offset : List Int} (hin : s.contains coords = true)
    (hdims : ∀ d ∈ s.dims, d ≤ Word.half) (hsum : List.Forall₂ SumFits coords offset) :
    s.neighborIndex? coords offset =
      if ∀ x ∈ displaced coords offset, 0 ≤ x then
        s.indexOf? ((displaced coords offset).map Int.toNat)
      else none := by
  apply Option.ext
  intro index
  rw [neighborIndex?_eq_some_iff hin hdims hsum]
  constructor
  · rintro ⟨target, htarget, rfl, rfl⟩
    have hlength : coords.length = target.length :=
      (length_of_inside hin).trans (length_of_inside htarget).symm
    have hcoords : (target.map fun c : Nat => (c : Int)).map Int.toNat = target := by
      simp [Function.comp_def]
    rw [displaced_displacement hlength, if_pos (by simp), hcoords, indexOf?, if_pos htarget]
  · intro hindex
    split at hindex
    · next hnonneg =>
        obtain ⟨hlt, hcoords⟩ := indexOf?_eq_some_iff.mp hindex
        refine ⟨_, contains_coordsOf hlt, ?_, indexOfUnchecked_coordsOf index⟩
        rw [hcoords]
        exact displacement_displaced hsum.length_eq.symm hnonneg
    · cases hindex

/-- As long as the signed words hold all indices, a linear distance is exact. -/
theorem linearDelta_displacement (hlen : s.len < Word.half) (p q : Fin s.len) :
    s.linearDelta (displacement (s.coordsOf p) (s.coordsOf q)) = (q : Int) - p := by
  have hlength : (s.coordsOf p).length = (s.coordsOf q).length := by
    rw [length_coordsOf, length_coordsOf]
  have hdot (i : Fin s.len) : dot (s.coordsOf i) s.strides = i :=
    indexOfUnchecked_coordsOf (i : Nat)
  have hmod : signedDot (displacement (s.coordsOf p) (s.coordsOf q)) s.strides ≡ (q : Int) - p
      [ZMOD Word.modulus] := by
    have hsum := signedDot_displacement hlength s.strides
    rw [hdot, hdot] at hsum
    simpa using hsum.sub_right (p : Int)
  rw [linearDelta, wrap_congr hmod]
  exact Word.wrap_of_bounded (by omega) (by omega)

/-- Whether a pass follows an offset. Away from the boundary it does not ask. -/
def admits (s : Shape) (coords : List Nat) (offset : Offset) : Bool :=
  !s.isBoundary coords || s.offsetInBounds coords offset.delta

theorem admits_iff (hlen : s.len < Word.half) {offset : Offset} (hstep : s.IsStep offset)
    (p : Fin s.len) :
    s.admits (s.coordsOf p) offset = true ↔ s.Encloses (displaced (s.coordsOf p) offset.delta) := by
  rw [admits, unitStep_inside_iff hlen hstep.1,
    encloses_displaced_iff (mem_unitSteps.mp hstep.1).1]

theorem exists_target_eq (hlen : s.len < Word.half) {offset : Offset} (hstep : s.IsStep offset)
    {p : Fin s.len} (hinside : s.Encloses (displaced (s.coordsOf p) offset.delta)) :
    ∃ q : Fin s.len,
      s.indexOf? ((displaced (s.coordsOf p) offset.delta).map Int.toNat) = some (q : Nat) ∧
        (p : Int) + offset.linear = q ∧ offset.target p = q := by
  obtain ⟨q, hmove⟩ := (encloses_displaced_iff (mem_unitSteps.mp hstep.1).1).mp hinside
  have hlinear : (p : Int) + offset.linear = q := by
    rw [hstep.2, ← hmove, linearDelta_displacement hlen]
    omega
  refine ⟨q, indexOf?_displaced hmove, hlinear, ?_⟩
  have hmodulus := s.volume_lt
  rw [Offset.target, Word.signed_of_lt (p.isLt.trans hlen), hlinear,
    Word.unsigned_natCast (q.isLt.trans hmodulus)]

end Shape

end Morphology
