import Mathlib.Data.Fintype.Card
import Morphology.Proofs.Level
import Morphology.Queue

/-! A queue whose flags agree with what waits in it: no index waits twice, and pushing and removing
act on the set of waiting indices. -/

namespace Morphology.Queue

variable {n : Nat}

/-- No index waits twice, and the flags tell which ones wait. -/
structure Consistent (q : Queue n) : Prop where
  nodup : q.toList.Nodup
  queued_iff : ∀ i, q.queued.get i = true ↔ i ∈ q.toList

theorem consistent_empty : (empty n).Consistent := by
  refine ⟨by simp, ?_⟩
  intro i
  simp [empty, toList, Vector.get]

theorem Consistent.size_le {q : Queue n} (h : q.Consistent) : q.size ≤ n := by
  rw [size_eq_length]
  simpa using h.nodup.length_le_card

theorem mem_toList_push {q : Queue n} (h : q.Consistent) {i j : Fin n} :
    j ∈ (q.push i).2.toList ↔ j ∈ q.toList ∨ j = i := by
  rw [toList_push]
  by_cases hi : q.queued.get i = true
  · have hmem : i ∈ q.toList := (h.queued_iff i).mp hi
    rw [if_pos hi]
    constructor
    · exact .inl
    · rintro (hj | rfl)
      · exact hj
      · exact hmem
  · rw [if_neg hi, List.mem_append, List.mem_singleton]

theorem Consistent.push {q : Queue n} (h : q.Consistent) (i : Fin n) :
    (q.push i).2.Consistent := by
  by_cases hi : q.queued.get i = true
  · rw [Queue.push, if_pos hi]
    exact h
  · have hlist : (q.push i).2.toList = q.toList ++ [i] := by rw [toList_push, if_neg hi]
    have hflags : (q.push i).2.queued = q.queued.set i true i.isLt := by
      rw [Queue.push, if_neg hi]
    have hnew : i ∉ q.toList := fun hmem => hi ((h.queued_iff i).mpr hmem)
    constructor
    · rw [hlist]
      exact h.nodup.append (List.nodup_singleton i) (by simpa using hnew)
    · intro j
      rw [mem_toList_push h, hflags, get_set]
      by_cases hj : j = i
      · simp [hj]
      · simp [hj, h.queued_iff j]

theorem size_push_le (q : Queue n) (i : Fin n) : (q.push i).2.size ≤ q.size + 1 := by
  rw [size_eq_length, size_eq_length, toList_push]
  split <;> simp

/-- The others keep their order, and the flag of the removed index is cleared. -/
structure Removed (q : Queue n) (i : Fin n) (r : Queue n) : Prop where
  toList_eq : r.toList = q.toList.erase i
  queued_eq : r.queued = q.queued.set i false i.isLt

theorem Consistent.removed {q r : Queue n} {i : Fin n} (h : q.Consistent)
    (hr : q.Removed i r) : r.Consistent := by
  constructor
  · rw [hr.toList_eq]
    exact h.nodup.erase i
  · intro j
    rw [hr.toList_eq, hr.queued_eq, h.nodup.mem_erase_iff, get_set]
    by_cases hj : j = i
    · simp [hj]
    · simp [hj, h.queued_iff j]

theorem Removed.size {q r : Queue n} {i : Fin n} (hr : q.Removed i r) (hi : i ∈ q.toList) :
    r.size + 1 = q.size := by
  rw [size_eq_length, size_eq_length, hr.toList_eq]
  exact List.length_erase_add_one hi

theorem removed_of_pop? {q rest : Queue n} {i : Fin n} (h : q.pop? = some (i, rest)) :
    q.Removed i rest := by
  constructor
  · rw [toList_of_pop? h, List.erase_cons_head]
  · cases hf : q.front with
    | cons j js =>
        simp only [pop?, hf, Option.some.injEq, Prod.mk.injEq] at h
        obtain ⟨rfl, rfl⟩ := h
        rfl
    | nil =>
        cases hb : q.back.reverse with
        | nil => simp [pop?, hf, hb] at h
        | cons j js =>
            simp only [pop?, hf, hb, Option.some.injEq, Prod.mk.injEq] at h
            obtain ⟨rfl, rfl⟩ := h
            rfl

/-- An index can be removed wherever it waits. -/
def remove (q : Queue n) (i : Fin n) : Queue n :=
  ⟨q.toList.erase i, [], q.queued.set i false i.isLt⟩

theorem removed_remove (q : Queue n) (i : Fin n) : q.Removed i (q.remove i) :=
  ⟨by simp [remove, toList], rfl⟩

end Morphology.Queue
