import Mathlib.Data.Option.NAry
import Morphology.Grid.Basic
import Morphology.Proofs.Level
import Morphology.Proofs.Shape.Displaced

/-! Making grids, and reading and writing at coordinates. A grid has one value at each position
inside its shape and none elsewhere, and what is written at one position is read there and nowhere
else. -/

namespace Morphology.Grid

variable {α β γ : Type}

theorem shapeOf_eq_ok_iff {dims : List Nat} {s : { s : Shape // s.len < limit }} :
    shapeOf dims = .ok s ↔ s.1.dims = dims := by
  constructor
  · intro h
    unfold shapeOf at h
    split at h
    · cases h
    · next t ht =>
        split at h
        · cases h
          exact Shape.ofDims_eq_ok_iff.mp ht
        · cases h
  · intro h
    rw [shapeOf, Shape.ofDims_eq_ok_iff.mpr h]
    exact dif_pos s.2

/-- A grid is made of exactly its extents and its values. -/
theorem ofList_eq_ok_iff {dims : List Nat} {values : List α} {g : Grid α} :
    ofList dims values = .ok g ↔ g.dims = dims ∧ g.data.toList = values := by
  constructor
  · intro h
    unfold ofList at h
    split at h
    · cases h
    · next s hs =>
        split at h
        · split at h
          · cases h
            exact ⟨Shape.ofDims_eq_ok_iff.mp hs, rfl⟩
          · cases h
        · cases h
  · rintro ⟨rfl, rfl⟩
    have hlength : g.data.toList.length = g.shape.len := by simp
    rw [ofList, Shape.ofDims_eq_ok_iff.mpr (show g.shape.dims = g.dims from rfl)]
    simp only [hlength, dite_true, g.len_lt]
    rfl

theorem ofList_dims (g : Grid α) (data : Vector α g.shape.len) :
    ofList g.dims data.toList = .ok (g.withData data) :=
  ofList_eq_ok_iff.mpr ⟨rfl, rfl⟩

theorem exists_eq_of_dims_eq {g h : Grid α} (hdims : g.dims = h.dims) :
    ∃ (s : Shape) (small : s.len < limit) (left right : Vector α s.len),
      g = ⟨s, small, left⟩ ∧ h = ⟨s, small, right⟩ := by
  obtain ⟨s, small, left⟩ := g
  obtain ⟨t, _, right⟩ := h
  obtain rfl : s = t := Shape.ext_dims hdims
  exact ⟨s, small, left, right, rfl, rfl⟩

/-! ## Values at coordinates -/

theorem get?_coordsOf (g : Grid α) (p : Fin g.shape.len) :
    g.get? (g.shape.coordsOf p) = some (g.data.get p) := by
  rw [get?, Shape.indexOf?, if_pos (Shape.contains_coordsOf p.isLt),
    Shape.indexOfUnchecked_coordsOf, Option.bind_some]
  exact Vector.getElem?_eq_getElem p.isLt

theorem get?_of_outside {g : Grid α} {coords : List Nat} (h : g.shape.contains coords = false) :
    g.get? coords = none := by
  rw [get?, Shape.indexOf?, h]
  rfl

theorem ne_coordsOf_of_outside {s : Shape} {coords : List Nat} (h : s.contains coords = false)
    (p : Fin s.len) : coords ≠ s.coordsOf p := by
  rintro rfl
  exact absurd (Shape.contains_coordsOf p.isLt) (Bool.eq_false_iff.mp h)

theorem exists_coordsOf_eq {g : Grid α} {coords : List Nat} {a : α} (h : g.get? coords = some a) :
    ∃ p : Fin g.shape.len, g.shape.coordsOf p = coords := by
  apply Shape.exists_coordsOf_of_contains
  by_contra houtside
  rw [get?_of_outside (Bool.not_eq_true _ ▸ houtside)] at h
  cases h

theorem get?_eq_some_iff {g : Grid α} {coords : List Nat} {a : α} :
    g.get? coords = some a ↔
      ∃ p : Fin g.shape.len, g.shape.coordsOf p = coords ∧ g.data.get p = a := by
  constructor
  · intro h
    obtain ⟨p, rfl⟩ := exists_coordsOf_eq h
    rw [get?_coordsOf, Option.some.injEq] at h
    exact ⟨p, rfl, h⟩
  · rintro ⟨p, rfl, rfl⟩
    exact g.get?_coordsOf p

theorem isSome_get?_iff {g : Grid α} {coords : List Nat} :
    (g.get? coords).isSome = true ↔ g.shape.contains coords = true := by
  constructor
  · intro h
    obtain ⟨a, ha⟩ := Option.isSome_iff_exists.mp h
    obtain ⟨p, rfl⟩ := exists_coordsOf_eq ha
    exact Shape.contains_coordsOf p.isLt
  · intro h
    obtain ⟨p, rfl⟩ := Shape.exists_coordsOf_of_contains h
    rw [get?_coordsOf, Option.isSome_some]

theorem get?_eq {s : Shape} {small : s.len < limit} {data : Vector α s.len}
    {value? : List Nat → Option α}
    (hinside : ∀ p : Fin s.len, value? (s.coordsOf p) = some (data.get p))
    (houtside : ∀ coords, s.contains coords = false → value? coords = none) :
    get? ⟨s, small, data⟩ = value? := by
  funext coords
  cases hcontains : s.contains coords with
  | false => rw [get?_of_outside hcontains, houtside coords hcontains]
  | true =>
      obtain ⟨p, rfl⟩ := Shape.exists_coordsOf_of_contains hcontains
      exact (get?_coordsOf ⟨s, small, data⟩ p).trans (hinside p).symm

def withValue (g : Grid α) (p : Fin g.shape.len) (value : α) : Grid α :=
  { g with data := g.data.set p value p.isLt }

/-- What is written at one element is read there and nowhere else. -/
theorem get?_withValue (g : Grid α) (p : Fin g.shape.len) (value : α) :
    (g.withValue p value).get? = Function.update g.get? (g.shape.coordsOf p) (some value) := by
  refine @get?_eq _ g.shape g.len_lt (g.data.set p value p.isLt) _ ?_ ?_
  · intro q
    rw [get_set, Function.update_apply]
    by_cases hq : q = p
    · rw [if_pos hq, if_pos (congrArg (fun i : Fin g.shape.len => g.shape.coordsOf i) hq)]
    · rw [if_neg hq, if_neg fun h => hq (Shape.eq_of_coordsOf_eq h), get?_coordsOf]
  · intro coords houtside
    rw [Function.update_of_ne (ne_coordsOf_of_outside houtside p), get?_of_outside houtside]

theorem set_coordsOf (g : Grid α) (p : Fin g.shape.len) (value : α) :
    g.set (g.shape.coordsOf p) value = .ok (g.withValue p value) := by
  have hdata : g.data.setIfInBounds p value = g.data.set p value p.isLt := by
    simp [Vector.setIfInBounds, Vector.set, Array.setIfInBounds]
  rw [set, Shape.indexOf?_coordsOf p.isLt, withValue, ← hdata]

theorem set_of_outside {g : Grid α} {coords : List Nat} (h : g.shape.contains coords = false)
    (value : α) : g.set coords value = .error (.indexOutOfBounds coords g.dims) := by
  rw [set, Shape.indexOf?, h]
  rfl

theorem setLinear?_of_lt (g : Grid α) (p : Fin g.shape.len) (value : α) :
    g.setLinear? p value = some (g.withValue p value) :=
  dif_pos p.isLt

theorem setLinear?_of_le {g : Grid α} {index : Nat} (h : g.shape.len ≤ index) (value : α) :
    g.setLinear? index value = none :=
  dif_neg (Nat.not_lt.mpr h)

theorem getNeighbor?_eq (g : Grid α) {coords : List Nat} {offset : List Int}
    (hin : g.shape.contains coords = true) (hsum : List.Forall₂ Shape.SumFits coords offset) :
    g.getNeighbor? coords offset =
      if ∀ x ∈ displaced coords offset, 0 ≤ x then
        g.get? ((displaced coords offset).map Int.toNat)
      else none := by
  rw [getNeighbor?, Shape.neighborIndex?_eq hin
    (fun d hd => (Shape.dims_lt_half g.len_lt d hd).le) hsum]
  split
  · rfl
  · rfl

theorem get?_map (f : α → β) (g : Grid α) :
    (g.map f).get? = fun coords => (g.get? coords).map f := by
  refine @get?_eq _ g.shape g.len_lt (g.data.map f) _ ?_ ?_
  · intro p
    rw [get?_coordsOf, get_map, Option.map_some]
  · intro coords houtside
    rw [get?_of_outside houtside, Option.map_none]

theorem get?_zipWith (f : α → β → γ) {s : Shape} (small : s.len < limit) (data : Vector α s.len)
    (other : Vector β s.len) :
    get? ⟨s, small, data.zipWith f other⟩ = fun coords =>
      Option.map₂ f (get? ⟨s, small, data⟩ coords) (get? ⟨s, small, other⟩ coords) := by
  apply get?_eq
  · intro p
    have hleft := get?_coordsOf ⟨s, small, data⟩ p
    have hright := get?_coordsOf ⟨s, small, other⟩ p
    rw [hleft, hright, Option.map₂_some_some, get_zipWith]
  · intro coords houtside
    have hnone : get? ⟨s, small, data⟩ coords = none := get?_of_outside houtside
    rw [hnone, Option.map₂_none_left]

end Morphology.Grid
