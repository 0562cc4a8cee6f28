import Morphology.Proofs.Propagation.FixedPoint
import Morphology.Proofs.Propagation.Quiet

/-! Markers with unordered values. No comparison with such a value holds, so it neither moves nor
stops; all others end on the right side of the mask, as if it were not there. -/

namespace Morphology

variable {α : Type} [Pixel α] {n : Nat} {kind : Kind} {mask start marker : Vector α n}

theorem Kind.foldl_combine_of_not_ordered {a : α} (h : ¬ Pixel.Ordered a) (values : List α) :
    values.foldl kind.combine a = a := by
  induction values with
  | nil => rfl
  | cons b values ih =>
      have hstep : kind.combine a b = a := by
        rw [Kind.combine_eq, if_neg fun hprecedes => h (Kind.ordered_of_precedes hprecedes).1]
      rw [List.foldl_cons, hstep]
      exact ih

theorem settled_of_not_ordered {visit : Visit n} (h : ¬ Pixel.Ordered (marker.get visit.index)) :
    settled kind mask marker visit = marker.get visit.index := by
  rw [settled_eq, Kind.foldl_combine_of_not_ordered h, Kind.clamp_eq,
    if_neg fun hprecedes => h (Kind.ordered_of_precedes hprecedes).2]

/-- Unordered values stay where they started, and all others stay ordered; those that have been seen
lie on the right side of the mask. -/
structure Upheld (kind : Kind) (mask start : Vector α n) (seen : Set (Fin n))
    (marker : Vector α n) : Prop where
  unordered : ∀ p, ¬ Pixel.Ordered (start.get p) → marker.get p = start.get p
  ordered : ∀ p, Pixel.Ordered (start.get p) → Pixel.Ordered (marker.get p)
  below : ∀ p ∈ seen, Pixel.Ordered (start.get p) → levels kind marker p ≤ levels kind mask p

theorem upheld_start (kind : Kind) (mask start : Vector α n) : Upheld kind mask start ∅ start :=
  ⟨fun _ _ => rfl, fun _ => id, by simp⟩

theorem Upheld.see {seen : Set (Fin n)} {q : Fin n} (h : Upheld kind mask start seen marker)
    (hq : Pixel.Ordered (start.get q) → levels kind marker q ≤ levels kind mask q) :
    Upheld kind mask start (insert q seen) marker := by
  refine ⟨h.unordered, h.ordered, ?_⟩
  intro p hseen hp
  rcases Set.mem_insert_iff.mp hseen with rfl | hseen
  · exact hq hp
  · exact h.below p hseen hp

theorem Upheld.set {seen : Set (Fin n)} {q : Fin n} {a : α}
    (h : Upheld kind mask start seen marker) (hq : Pixel.Ordered (start.get q))
    (ha : Pixel.Ordered a) (hle : kind.level a ≤ levels kind mask q) :
    Upheld kind mask start (insert q seen) (marker.set q a q.isLt) := by
  refine ⟨?_, ?_, ?_⟩
  · intro p hp
    have hpq : p ≠ q := fun heq => hp (heq ▸ hq)
    rw [get_set, if_neg hpq]
    exact h.unordered p hp
  · intro p hp
    rw [get_set]
    split
    · exact ha
    · exact h.ordered p hp
  · intro p hseen hp
    rw [levels_set]
    by_cases hpq : p = q
    · rw [hpq, Function.update_self]
      exact hle
    · rw [Function.update_of_ne hpq]
      exact h.below p (Set.mem_of_mem_insert_of_ne hseen hpq) hp

theorem marker_write_self (s : Swept α n) (i : Fin n) :
    (s.write i (s.marker.get i)).marker = s.marker := by
  rw [Swept.write]
  split
  · rfl
  · apply ext_get
    intro p
    rw [get_set]
    split
    · next hp => rw [hp]
    · rfl

theorem Upheld.step {seen : Set (Fin n)} {s : Swept α n}
    (h : Upheld kind mask start seen s.marker) (hmask : AllOrdered mask) (visit : Visit n) :
    Upheld kind mask start (insert visit.index seen) (sweepStep kind mask s visit).marker := by
  rw [sweepStep]
  by_cases hstart : Pixel.Ordered (start.get visit.index)
  · have hold := h.ordered _ hstart
    have hvalue := ordered_settled kind mask hold
    have hle : kind.level (settled kind mask s.marker visit) ≤ levels kind mask visit.index := by
      rw [settled_eq, Kind.level_clamp (Kind.ordered_foldl_combine kind _ hold) (hmask _)]
      exact min_le_right _ _
    rw [Swept.write]
    split
    · next heq =>
        rw [(Kind.eq_iff kind hvalue hold).mp heq] at hle
        exact h.see fun _ => hle
    · exact h.set hstart hvalue hle
  · have hold : ¬ Pixel.Ordered (s.marker.get visit.index) := by
      rw [h.unordered _ hstart]
      exact hstart
    rw [settled_of_not_ordered hold, marker_write_self]
    exact h.see fun hordered => absurd hordered hstart

theorem Upheld.sweep {seen : Set (Fin n)} {visits : List (Visit n)} {s : Swept α n}
    (h : Upheld kind mask start seen s.marker) (hmask : AllOrdered mask)
    (hall : ∀ p, p ∈ seen ∨ p ∈ visits.map Visit.index) :
    Upheld kind mask start Set.univ (visits.foldl (sweepStep kind mask) s).marker := by
  induction visits generalizing seen s with
  | nil =>
      have hseen : seen = Set.univ := Set.eq_univ_of_forall fun p => by simpa using hall p
      rwa [hseen] at h
  | cons visit rest ih => exact ih (h.step hmask visit) (seen_or_mem hall)

theorem Upheld.offer {s : Drained α n} (h : Upheld kind mask start Set.univ s.marker)
    (hmask : AllOrdered mask) (a : α) (q : Fin n) :
    Upheld kind mask start Set.univ (Morphology.offer kind mask a s q).marker := by
  rw [Morphology.offer]
  split
  · next htaken =>
      obtain ⟨hq, ha⟩ := Kind.ordered_of_precedes (Bool.and_eq_true_iff.mp htaken).1
      have hstart : Pixel.Ordered (start.get q) := by
        by_contra hstart
        rw [h.unordered q hstart] at hq
        exact hstart hq
      have hle : kind.level (kind.clamp a (mask.get q)) ≤ levels kind mask q := by
        rw [Kind.level_clamp ha (hmask q)]
        exact min_le_right _ _
      have hset := h.set hstart (Kind.ordered_clamp ha) hle
      rwa [Set.insert_eq_of_mem (Set.mem_univ q)] at hset
  · exact h

theorem Upheld.offers {s : Drained α n} (h : Upheld kind mask start Set.univ s.marker)
    (hmask : AllOrdered mask) (a : α) (order : List (Fin n)) :
    Upheld kind mask start Set.univ (order.foldl (Morphology.offer kind mask a) s).marker := by
  induction order generalizing s with
  | nil => exact h
  | cons q rest ih => exact ih (h.offer hmask a q)

theorem Upheld.run {neighbors : Fin n → List (Fin n)} {s t : Drained α n} {m : Nat}
    (h : Upheld kind mask start Set.univ s.marker) (hmask : AllOrdered mask)
    (hrun : AnyOrderRun kind mask neighbors s m t) :
    Upheld kind mask start Set.univ t.marker := by
  induction hrun with
  | refl => exact h
  | @tail m t u _ hstep ih =>
      cases hstep with
      | @handle p queue order _ _ _ =>
          have hpopped : Upheld kind mask start Set.univ
              ({ t with queue, pops := t.pops + 1 } : Drained α n).marker := ih
          exact hpopped.offers hmask _ order

/-- Propagation leaves the unordered values of its marker alone, and brings all others to the right
side of the mask. -/
theorem upheld_propagate {adjacent : Fin n → Fin n → Prop} {schedule : Schedule n}
    (hschedule : schedule.Follows adjacent) (kind : Kind) (hmask : AllOrdered mask)
    (start : Vector α n) :
    Upheld kind mask start Set.univ (propagate kind schedule mask start).1 := by
  have hforward : Upheld kind mask start Set.univ
      (forwardSweep kind mask schedule.forward start).marker :=
    Upheld.sweep (s := ⟨start, 0⟩) (upheld_start kind mask start) hmask fun p =>
      .inr (hschedule.mem_forward p)
  have hbackward : Upheld kind mask start Set.univ
      (afterSweeps kind schedule mask start).marker := by
    change Upheld kind mask start Set.univ
      (backwardSweep kind mask schedule.backward _ (Queue.empty n)).marker
    rw [toSwept_backwardSweep]
    exact Upheld.sweep (s := ⟨_, 0⟩) hforward hmask fun p => .inl (Set.mem_univ p)
  obtain ⟨m, hrun⟩ := drain_run kind mask (afterSweeps kind schedule mask start).marker
    schedule.neighbors (afterSweeps kind schedule mask start).queue
  exact hbackward.run hmask hrun

end Morphology
