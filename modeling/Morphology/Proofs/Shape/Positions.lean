import Mathlib.Data.List.Forall2
import Mathlib.Data.List.Lex
import Mathlib.Data.List.Sort
import Morphology.Proofs.Shape.Numbering

/-! The positions of a shape, enumerated axis by axis without any index. The walks over a shape meet
the same positions in the same order. -/

namespace Morphology

/-- Sorted heads before sorted tails make a lexicographically sorted list. -/
theorem pairwise_lt_flatMap_cons {α : Type} [LT α] {heads : List α} {tails : List (List α)}
    (hheads : heads.Pairwise (· < ·)) (htails : tails.Pairwise (· < ·)) :
    (heads.flatMap fun head => tails.map (head :: ·)).Pairwise (· < ·) := by
  rw [List.pairwise_flatMap]
  refine ⟨?_, ?_⟩
  · intro head _
    rw [List.pairwise_map]
    exact htails.imp fun h => List.cons_lt_cons_iff.mpr (.inr ⟨rfl, h⟩)
  · apply hheads.imp
    intro first second hlt x hx y hy
    rcases List.mem_map.mp hx with ⟨xs, _, rfl⟩
    rcases List.mem_map.mp hy with ⟨ys, _, rfl⟩
    exact List.cons_lt_cons_iff.mpr (.inl hlt)

namespace Shape

/-- All coordinates inside some extents, the last one running fastest. -/
def positions : List Nat → List (List Nat)
  | [] => [[]]
  | d :: ds => (List.range d).flatMap fun c => (positions ds).map (c :: ·)

theorem mem_positions_iff {coords dims : List Nat} :
    coords ∈ positions dims ↔ inside coords dims = true := by
  induction dims generalizing coords with
  | nil => cases coords <;> simp [positions, inside]
  | cons d ds ih => cases coords <;> simp [positions, inside, ih]

theorem inside_iff_forall₂ {coords dims : List Nat} :
    inside coords dims = true ↔ List.Forall₂ (· < ·) coords dims := by
  induction coords generalizing dims with
  | nil => cases dims <;> simp [inside]
  | cons c cs ih => cases dims <;> simp [inside, ih]

theorem pairwise_lt_positions (dims : List Nat) : (positions dims).Pairwise (· < ·) := by
  induction dims with
  | nil => exact List.pairwise_singleton _ _
  | cons d ds ih => exact pairwise_lt_flatMap_cons List.pairwise_lt_range ih

theorem nodup_positions (dims : List Nat) : (positions dims).Nodup :=
  (pairwise_lt_positions dims).imp fun h => ne_of_lt h

variable {s : Shape}

theorem pairwise_lt_coordsOf (s : Shape) :
    ((List.range s.len).map s.coordsOf).Pairwise (· < ·) := by
  rw [List.pairwise_map]
  apply List.pairwise_lt_range.imp_of_mem
  intro i j hi hj hlt
  exact coordsOf_lt_iff (p := ⟨i, List.mem_range.mp hi⟩) (q := ⟨j, List.mem_range.mp hj⟩) |>.mpr hlt

/-- In lexicographic order the positions are those of the indices counted up. -/
theorem map_coordsOf_range_eq_positions (s : Shape) :
    (List.range s.len).map s.coordsOf = positions s.dims := by
  apply (pairwise_lt_coordsOf s).eq_of_mem_iff (pairwise_lt_positions s.dims)
  intro coords
  rw [mem_positions_iff, List.mem_map]
  constructor
  · rintro ⟨index, hindex, rfl⟩
    exact contains_coordsOf (List.mem_range.mp hindex)
  · intro hinside
    exact ⟨_, List.mem_range.mpr (indexOfUnchecked_lt hinside), coordsOf_indexOfUnchecked hinside⟩

theorem length_positions (s : Shape) : (positions s.dims).length = s.len := by
  rw [← map_coordsOf_range_eq_positions, List.length_map, List.length_range]

theorem getElem?_positions_eq_some_iff {index : Nat} {coords : List Nat} :
    (positions s.dims)[index]? = some coords ↔ s.indexOf? coords = some index := by
  rw [← map_coordsOf_range_eq_positions, indexOf?_eq_some_iff, List.getElem?_eq_some_iff]
  simp

theorem raster_toList_eq_positions (s : Shape) : s.raster.toList = positions s.dims := by
  rw [raster_toList, map_coordsOf_range_eq_positions]

end Shape

end Morphology
