import Morphology.Proofs.Propagation.Schedule
import Morphology.Proofs.Shape.Displaced

/-! Causal offsets lead to what a sweep has visited. They are told by the sign of the first
component that is not zero, the sweeps go by index: inside a shape both agree, since the axes behind
the first one that changes never outweigh it. -/

namespace Morphology

namespace Shape

variable {s : Shape}

theorem exists_precedes_iff_lt (hlen : s.len < Word.half) {p : Fin s.len} {offset : Offset}
    (hlength : offset.delta.length = s.ndim) (hmoves : ∃ d ∈ offset.delta, d ≠ 0)
    (hinside : s.Encloses (displaced (s.coordsOf p) offset.delta)) :
    ∃ q : Fin s.len,
      s.indexOf? ((displaced (s.coordsOf p) offset.delta).map Int.toNat) = some (q : Nat) ∧
        q ≠ p ∧ (offset.precedesInRasterOrder = true ↔ q < p) ∧
        (s.linearDelta offset.delta < 0 ↔ q < p) := by
  obtain ⟨q, hmove⟩ := (encloses_displaced_iff hlength).mp hinside
  refine ⟨q, indexOf?_displaced hmove, ?_, precedesInRasterOrder_iff hmove.symm, ?_⟩
  · rintro rfl
    obtain ⟨d, hd, hne⟩ := hmoves
    rw [← hmove] at hd
    exact hne (eq_zero_of_mem_displacement_self hd)
  · rw [← hmove, linearDelta_displacement hlen, Fin.lt_def]
    omega

end Shape

/-- At each visit a sweep knows the neighbors that it has seen or visited before. -/
theorem Chronological.mem_passed_iff {n : Nat} {adjacent : Fin n → Fin n → Prop}
    {seen : Set (Fin n)} {visits before after : List (Visit n)} {visit : Visit n}
    (h : Chronological adjacent seen visits) (hsplit : visits = before ++ visit :: after)
    (q : Fin n) :
    q ∈ visit.passed ↔
      adjacent visit.index q ∧ (q ∈ seen ∨ q ∈ before.map Visit.index) := by
  induction before generalizing seen visits with
  | nil =>
      subst hsplit
      cases h with
      | cons hpassed _ => simpa using hpassed q
  | cons first before ih =>
      subst hsplit
      cases h with
      | cons _ hnext =>
          rw [ih hnext rfl, Set.mem_insert_iff, List.map_cons, List.mem_cons]
          tauto

namespace Shape

variable {s : Shape} {connectivity : Connectivity}

/-- Along a sweep the elements that some offsets lead to, as far as they lie inside, are the
neighbors that have been visited before, and those that the visit knows. -/
def LeadsBack (s : Shape) (connectivity : Connectivity) (offsets : List Offset)
    (visits : List (Visit s.len)) : Prop :=
  ∀ before visit after, visits = before ++ visit :: after → ∀ q : Fin s.len,
    (q ∈ visit.passed ↔ ∃ offset ∈ offsets,
      displaced (s.coordsOf visit.index) offset.delta =
        (s.coordsOf q).map fun c : Nat => (c : Int)) ∧
    (q ∈ visit.passed ↔ s.Adjacent connectivity visit.index q ∧ q ∈ before.map Visit.index)

theorem displaced_eq_coordsOf_iff {p q : Fin s.len} {delta : List Int}
    (hlength : delta.length = s.ndim) :
    displaced (s.coordsOf p) delta = (s.coordsOf q).map (fun c : Nat => (c : Int)) ↔
      delta = displacement (s.coordsOf p) (s.coordsOf q) := by
  constructor
  · intro h
    have hmove : displacement (s.coordsOf p) ((displaced (s.coordsOf p) delta).map Int.toNat) =
        delta := displacement_displaced (by rw [hlength, length_coordsOf]) (by simp [h])
    rw [← hmove, h]
    simp [Function.comp_def]
  · rintro rfl
    exact displaced_displacement (by rw [length_coordsOf, length_coordsOf])

theorem leadsBack_of_chronological (hlen : s.len < Word.half) {offsets : List Offset}
    {visits : List (Visit s.len)} (hoffsets : ∀ offset ∈ offsets, s.IsStep offset)
    (hvisits : Chronological (s.Adjacent connectivity) ∅ visits)
    (hpassed : ∀ visit ∈ visits, visit.passed = s.neighborsOf offsets (s.site visit.index)) :
    s.LeadsBack connectivity offsets visits := by
  intro before visit after hsplit q
  have hvisit : visit ∈ visits := by simp [hsplit]
  constructor
  · rw [hpassed visit hvisit, mem_neighborsOf hlen hoffsets]
    apply exists_congr
    intro offset
    rw [and_congr_right_iff]
    intro hoffset
    exact (displaced_eq_coordsOf_iff (mem_unitSteps.mp (hoffsets offset hoffset).1).1).symm
  · rw [hvisits.mem_passed_iff hsplit]
    simp

theorem leadsBack_forward (hlen : s.len < Word.half) (connectivity : Connectivity) :
    s.LeadsBack connectivity (s.neighborhood connectivity).causal
      (s.schedule connectivity).forward := by
  apply leadsBack_of_chronological hlen (fun _ h => isStep_of_mem_full (mem_causal_iff.mp h).1)
    (follows_schedule hlen connectivity).forward
  intro visit hvisit
  rw [schedule_forward] at hvisit
  obtain ⟨p, _, rfl⟩ := List.mem_map.mp hvisit
  rfl

theorem leadsBack_backward (hlen : s.len < Word.half) (connectivity : Connectivity) :
    s.LeadsBack connectivity (s.neighborhood connectivity).anticausal
      (s.schedule connectivity).backward := by
  apply leadsBack_of_chronological hlen (fun _ h => isStep_of_mem_full (mem_anticausal_iff.mp h).1)
    (follows_schedule hlen connectivity).backward
  intro visit hvisit
  rw [schedule_backward] at hvisit
  obtain ⟨p, _, rfl⟩ := List.mem_map.mp hvisit
  rfl

/-- In a shape whose length the signed words hold, an offset between two positions inside, other
than zero, is causal exactly if it leads to a smaller index, which is exactly if its linear distance
is negative. So the neighbors that the forward sweep reads along the causal offsets, and the
backward sweep along the anticausal ones, are the neighbors that it has visited before. -/
theorem precedesInRasterOrder_iff_visited_before (s : Shape) (hlen : s.len < Word.half) :
    (∀ (coords : List Nat) (offset : Offset), s.contains coords = true →
      offset.delta.length = s.ndim → (∃ d ∈ offset.delta, d ≠ 0) →
      s.Encloses (displaced coords offset.delta) →
      ∃ here there, s.indexOf? coords = some here ∧
        s.indexOf? ((displaced coords offset.delta).map Int.toNat) = some there ∧ there ≠ here ∧
        (offset.precedesInRasterOrder = true ↔ there < here) ∧
        (s.linearDelta offset.delta < 0 ↔ there < here)) ∧
    ∀ connectivity,
      s.LeadsBack connectivity (s.neighborhood connectivity).causal
          (s.schedule connectivity).forward ∧
        s.LeadsBack connectivity (s.neighborhood connectivity).anticausal
          (s.schedule connectivity).backward := by
  refine ⟨?_, fun connectivity =>
    ⟨leadsBack_forward hlen connectivity, leadsBack_backward hlen connectivity⟩⟩
  intro coords offset hin hlength hmoves hinside
  obtain ⟨p, rfl⟩ := exists_coordsOf_of_contains hin
  obtain ⟨q, hindex, hne, hcausal, hlinear⟩ := exists_precedes_iff_lt hlen hlength hmoves hinside
  exact ⟨p, q, indexOf?_coordsOf p.isLt, hindex, Fin.val_ne_of_ne hne, hcausal, hlinear⟩

/-- Two elements beside two others, with an axis of extent one between the axes. -/
def sliver : Shape := ⟨[2, 1, 2], by decide, by decide, by decide⟩

theorem precedesInRasterOrder_sliver_iff_visited_before :
    sliver.len < Word.half ∧
      (∃ here there, sliver.indexOf? [1, 0, 0] = some here ∧
        sliver.indexOf? [0, 0, 1] = some there ∧ there ≠ here ∧
        (Offset.precedesInRasterOrder ⟨[-1, 0, 1], 0⟩ = true ↔ there < here) ∧
        (sliver.linearDelta [-1, 0, 1] < 0 ↔ there < here)) ∧
      sliver.LeadsBack .full (sliver.neighborhood .full).causal
        (sliver.schedule .full).forward := by
  have hlen : sliver.len < Word.half := by decide
  obtain ⟨hoffsets, hsweeps⟩ := precedesInRasterOrder_iff_visited_before sliver hlen
  have hinside : sliver.Encloses (displaced [1, 0, 0] [-1, 0, 1]) := encloses_iff.mpr (by decide)
  exact ⟨hlen, hoffsets [1, 0, 0] ⟨[-1, 0, 1], 0⟩ (by decide) rfl (by decide) hinside,
    (hsweeps .full).1⟩

/-- An offset that leaves the shape may be causal although its linear distance is positive. -/
example : Offset.precedesInRasterOrder ⟨[-1, 1, 1], 0⟩ = true ∧
    0 < sliver.linearDelta [-1, 1, 1] := by decide

end Shape

end Morphology
