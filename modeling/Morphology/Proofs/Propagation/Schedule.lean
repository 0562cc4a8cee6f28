import Morphology.Proofs.Propagation.Sweeps
import Morphology.Proofs.Shape.Adjacency

/-! The schedule of a shape: both sweeps are chronological and complete, and every element knows all
its neighbors. -/

namespace Morphology

variable {n : Nat} {adjacent : Fin n → Fin n → Prop}

/-- What the passes rely on. -/
structure Schedule.Follows (schedule : Schedule n) (adjacent : Fin n → Fin n → Prop) : Prop where
  symm : ∀ p q, adjacent p q → adjacent q p
  mem_neighbors : ∀ p q, q ∈ schedule.neighbors p ↔ adjacent p q
  forward : Chronological adjacent ∅ schedule.forward
  mem_forward : ∀ p, p ∈ schedule.forward.map Visit.index
  backward : Chronological adjacent ∅ schedule.backward
  mem_backward : ∀ p, p ∈ schedule.backward.map Visit.index

/-- Visits in a strict order of all elements are chronological if each one knows the neighbors
before it. -/
theorem chronological_of_pairwise {r : Fin n → Fin n → Prop} (hasymm : ∀ p q, r p q → ¬ r q p)
    {seen : Set (Fin n)} {visits : List (Visit n)}
    (hsorted : (visits.map Visit.index).Pairwise r)
    (hpassed : ∀ visit ∈ visits, ∀ q,
      q ∈ visit.passed ↔ adjacent visit.index q ∧ r q visit.index)
    (hseen : ∀ q ∈ seen, ∀ p ∈ visits.map Visit.index, r q p)
    (hall : ∀ q, q ∈ seen ∨ q ∈ visits.map Visit.index) : Chronological adjacent seen visits := by
  induction visits generalizing seen with
  | nil => exact .nil seen
  | cons visit rest ih =>
      rw [List.map_cons, List.pairwise_cons] at hsorted
      refine .cons ?_ (ih hsorted.2 (fun v hv => hpassed v (by simp [hv])) ?_ (seen_or_mem hall))
      · intro q
        rw [hpassed visit (by simp), and_congr_right_iff]
        intro _
        constructor
        · intro hbefore
          apply (hall q).resolve_right
          intro hlater
          rcases List.mem_cons.mp hlater with rfl | hlater
          · exact hasymm _ _ hbefore hbefore
          · exact hasymm _ _ hbefore (hsorted.1 q hlater)
        · intro hq
          exact hseen q hq visit.index (by simp)
      · intro q hq p hp
        rcases Set.mem_insert_iff.mp hq with rfl | hq
        · exact hsorted.1 p hp
        · exact hseen q hq p (by simp only [List.map_cons, List.mem_cons, hp, or_true])

namespace Shape

variable {s : Shape} {connectivity : Connectivity}

theorem schedule_forward :
    (s.schedule connectivity).forward = (List.finRange s.len).map fun p =>
      ⟨p, s.neighborsOf (s.neighborhood connectivity).causal (s.site p)⟩ := by
  rw [schedule, sites_eq, List.map_map]
  rfl

theorem schedule_backward :
    (s.schedule connectivity).backward = (List.finRange s.len).reverse.map fun p =>
      ⟨p, s.neighborsOf (s.neighborhood connectivity).anticausal (s.site p)⟩ := by
  rw [schedule, sitesBackward_eq, List.map_map]
  rfl

theorem map_index_schedule_forward (s : Shape) (connectivity : Connectivity) :
    (s.schedule connectivity).forward.map Visit.index = List.finRange s.len := by
  rw [schedule_forward, List.map_map]
  exact List.map_id _

theorem map_index_schedule_backward (s : Shape) (connectivity : Connectivity) :
    (s.schedule connectivity).backward.map Visit.index = (List.finRange s.len).reverse := by
  rw [schedule_backward, List.map_map]
  exact List.map_id _

/-- One sweep goes up through the elements, the other down. -/
theorem pairwise_schedule (s : Shape) (connectivity : Connectivity) :
    ((s.schedule connectivity).forward.map Visit.index).Pairwise (· < ·) ∧
      ((s.schedule connectivity).backward.map Visit.index).Pairwise (· > ·) := by
  rw [map_index_schedule_forward, map_index_schedule_backward, List.pairwise_reverse]
  exact ⟨List.pairwise_lt_finRange _, List.pairwise_lt_finRange _⟩

theorem nodup_schedule (s : Shape) (connectivity : Connectivity) :
    ((s.schedule connectivity).forward.map Visit.index).Nodup ∧
      ((s.schedule connectivity).backward.map Visit.index).Nodup :=
  ⟨(s.pairwise_schedule connectivity).1.imp ne_of_lt,
    (s.pairwise_schedule connectivity).2.imp ne_of_gt⟩

theorem follows_schedule (hlen : s.len < Word.half) (connectivity : Connectivity) :
    (s.schedule connectivity).Follows (s.Adjacent connectivity) := by
  have hforward := map_index_schedule_forward s connectivity
  have hbackward := map_index_schedule_backward s connectivity
  obtain ⟨hup, hdown⟩ := s.pairwise_schedule connectivity
  have hlt (p q : Fin s.len) (h : p < q) : ¬ q < p := not_lt.mpr h.le
  refine ⟨fun p q => Adjacent.symm, fun p q => mem_neighborsOf_full hlen, ?_, ?_, ?_, ?_⟩
  · refine chronological_of_pairwise hlt hup ?_ (by simp) (by simp [hforward])
    intro visit hvisit q
    rw [schedule_forward] at hvisit
    obtain ⟨p, _, rfl⟩ := List.mem_map.mp hvisit
    exact mem_neighborsOf_causal hlen
  · simp [hforward]
  · refine chronological_of_pairwise (fun p q => hlt q p) hdown ?_ (by simp)
      (by simp [hbackward])
    intro visit hvisit q
    rw [schedule_backward] at hvisit
    obtain ⟨p, _, rfl⟩ := List.mem_map.mp hvisit
    exact mem_neighborsOf_anticausal hlen
  · simp [hbackward]

end Shape

end Morphology
