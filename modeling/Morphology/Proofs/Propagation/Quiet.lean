import Morphology.Proofs.Propagation.FixedPoint

/-! Quiet markers: none of their elements can take anything from a neighbor. On them no pass writes
or queues an element, on all others some counter moves, and every propagation ends at one. -/

namespace Morphology

variable {α : Type} [Pixel α] {n : Nat} {kind : Kind} {adjacent : Fin n → Fin n → Prop}
  {schedule : Schedule n} {mask marker : Vector α n}

/-- Every element respects its mask, and none lies behind both a neighbor and its own mask. -/
structure Quiet (kind : Kind) (adjacent : Fin n → Fin n → Prop) (mask marker : Vector α n) :
    Prop where
  respects : ∀ p, kind.respects (marker.get p) (mask.get p) = true
  not_behind : ∀ p q, adjacent p q →
    ¬ (kind.precedes (marker.get q) (marker.get p) = true ∧
      kind.precedes (marker.get q) (mask.get q) = true)

theorem quiet_iff_stable (hmask : AllOrdered mask) (hmarker : AllOrdered marker) :
    Quiet kind adjacent mask marker ↔
      (∀ p, levels kind marker p ≤ levels kind mask p) ∧
        Stable adjacent (levels kind mask) (levels kind marker) := by
  have hbelow : (∀ p, kind.respects (marker.get p) (mask.get p) = true) ↔
      ∀ p, levels kind marker p ≤ levels kind mask p :=
    forall_congr' fun p => Kind.respects_iff (hmarker p) (hmask p)
  have hpair (p q : Fin n) :
      ¬ (kind.precedes (marker.get q) (marker.get p) = true ∧
          kind.precedes (marker.get q) (mask.get q) = true) ↔
        min (levels kind marker p) (levels kind mask q) ≤ levels kind marker q := by
    rw [Kind.precedes_iff (hmarker q) (hmarker p), Kind.precedes_iff (hmarker q) (hmask q),
      ← lt_min_iff, not_lt]
    rfl
  constructor
  · intro h
    exact ⟨hbelow.mp h.respects, fun p q hpq => (hpair p q).mp (h.not_behind p q hpq)⟩
  · intro h
    exact ⟨hbelow.mpr h.1, fun p q hpq => (hpair p q).mpr (h.2 p q hpq)⟩

theorem Quiet.level_settled_eq {visit : Visit n} (h : Quiet kind adjacent mask marker)
    (hmask : AllOrdered mask) (hmarker : AllOrdered marker)
    (hpassed : ∀ q ∈ visit.passed, adjacent q visit.index) :
    kind.level (settled kind mask marker visit) = levels kind marker visit.index := by
  have hstable := (quiet_iff_stable hmask hmarker).mp h
  have hlevel (t : Int) := le_level_settled_iff kind hmask hmarker visit (t := t)
  apply le_antisymm
  · obtain ⟨hown | ⟨q, hq, hneighbor⟩, hcut⟩ := (hlevel _).mp le_rfl
    · exact hown
    · exact (le_min hneighbor hcut).trans (hstable.2 q visit.index (hpassed q hq))
  · exact (hlevel _).mpr ⟨.inl le_rfl, hstable.1 visit.index⟩

theorem Quiet.sweepStep_eq {s : Swept α n} {visit : Visit n}
    (h : Quiet kind adjacent mask s.marker) (hmask : AllOrdered mask)
    (hmarker : AllOrdered s.marker) (hpassed : ∀ q ∈ visit.passed, adjacent q visit.index) :
    sweepStep kind mask s visit = s := by
  have hvalue := ordered_settled kind mask (hmarker visit.index)
  have hsame : Pixel.eq (settled kind mask s.marker visit) (s.marker.get visit.index) = true :=
    (Kind.eq_iff kind hvalue (hmarker visit.index)).mpr (h.level_settled_eq hmask hmarker hpassed)
  rw [sweepStep, Swept.write, if_pos hsame]

theorem Quiet.seedStep_eq {s : Seeded α n} {visit : Visit n}
    (h : Quiet kind adjacent mask s.marker) (hmask : AllOrdered mask)
    (hmarker : AllOrdered s.marker) (hsymm : ∀ p q, adjacent p q → adjacent q p)
    (hpassed : ∀ q ∈ visit.passed, adjacent visit.index q) :
    seedStep kind mask s visit = s := by
  have hback : ∀ q ∈ visit.passed, adjacent q visit.index :=
    fun q hq => hsymm _ _ (hpassed q hq)
  have hwrite : s.toSwept.write visit.index (settled kind mask s.marker visit) = s.toSwept :=
    h.sweepStep_eq hmask hmarker hback
  have hnone : visit.passed.any
      (improves kind mask s.marker (settled kind mask s.marker visit)) = false := by
    rw [List.any_eq_false]
    intro q hq hraise
    have hsettled := ordered_settled kind mask (hmarker visit.index)
    have hopen := (improves_iff hmask hmarker hsettled q).mp hraise
    rw [h.level_settled_eq hmask hmarker hback, ← lt_min_iff] at hopen
    have hstable := ((quiet_iff_stable hmask hmarker).mp h).2
    exact absurd hopen (not_lt.mpr (hstable visit.index q (hpassed q hq)))
  rw [seedStep, hwrite, hnone]
  rfl

theorem Quiet.forwardSweep_eq (h : Quiet kind adjacent mask marker) (hmask : AllOrdered mask)
    (hmarker : AllOrdered marker) (hschedule : schedule.Follows adjacent) :
    forwardSweep kind mask schedule.forward marker = ⟨marker, 0⟩ := by
  rw [forwardSweep]
  apply hschedule.forward.run (fun p => .inr (hschedule.mem_forward p))
    (fun _ s => s = (⟨marker, 0⟩ : Swept α n)) _ rfl
  rintro seen s visit hpassed rfl
  exact h.sweepStep_eq hmask hmarker fun q hq => hschedule.symm _ _ ((hpassed q).mp hq).1

theorem Quiet.backwardSweep_eq (h : Quiet kind adjacent mask marker) (hmask : AllOrdered mask)
    (hmarker : AllOrdered marker) (hschedule : schedule.Follows adjacent) (queue : Queue n) :
    backwardSweep kind mask schedule.backward marker queue = ⟨⟨marker, 0⟩, queue⟩ := by
  rw [backwardSweep]
  apply hschedule.backward.run (fun p => .inr (hschedule.mem_backward p))
    (fun _ s => s = (⟨⟨marker, 0⟩, queue⟩ : Seeded α n)) _ rfl
  rintro seen s visit hpassed rfl
  exact h.seedStep_eq hmask hmarker hschedule.symm fun q hq => ((hpassed q).mp hq).1

theorem drain_eq_of_empty {neighbors : Fin n → List (Fin n)} {queue : Queue n}
    (h : queue.toList = []) :
    drain kind mask neighbors marker queue = ⟨⟨⟨marker, 0⟩, queue⟩, 0⟩ := by
  rw [drain]
  cases drainBound queue with
  | zero => rfl
  | succ fuel => rw [drainSteps, drainStep?_eq_none_iff.mpr h]

theorem Quiet.propagate_eq (h : Quiet kind adjacent mask marker) (hmask : AllOrdered mask)
    (hmarker : AllOrdered marker) (hschedule : schedule.Follows adjacent) :
    propagate kind schedule mask marker = (marker, ⟨0, 0, 0, 0, 0⟩) := by
  simp only [propagate, h.forwardSweep_eq hmask hmarker hschedule,
    h.backwardSweep_eq hmask hmarker hschedule, drain_eq_of_empty Queue.toList_empty]
  rfl

theorem sweep_eq_or_updates_lt (kind : Kind) (mask : Vector α n) (visits : List (Visit n))
    (s : Swept α n) :
    visits.foldl (sweepStep kind mask) s = s ∨
      s.updates < (visits.foldl (sweepStep kind mask) s).updates := by
  have hwrite (s : Swept α n) (visit : Visit n) :
      sweepStep kind mask s visit = s ∨ s.updates < (sweepStep kind mask s visit).updates := by
    rw [sweepStep, Swept.write]
    split
    · exact .inl rfl
    · exact .inr (Nat.lt_succ_self _)
  induction visits generalizing s with
  | nil => exact .inl rfl
  | cons visit visits ih =>
      rw [List.foldl_cons]
      rcases hwrite s visit with hsame | hmore
      · rw [hsame]
        exact ih s
      · rcases ih (sweepStep kind mask s visit) with hrest | hrest
        · exact .inr (by rwa [hrest])
        · exact .inr (hmore.trans hrest)

/-- The backward sweep writes as a forward sweep over the same visits does. -/
theorem toSwept_backwardSweep (kind : Kind) (mask marker : Vector α n) (visits : List (Visit n))
    (queue : Queue n) :
    (backwardSweep kind mask visits marker queue).toSwept = forwardSweep kind mask visits marker :=
  (List.foldl_hom Seeded.toSwept fun s visit => (toSwept_seedStep s visit).symm).symm

theorem forwardSweep_eq_of_updates_eq_zero {visits : List (Visit n)}
    (h : (forwardSweep kind mask visits marker).updates = 0) :
    forwardSweep kind mask visits marker = ⟨marker, 0⟩ := by
  rcases sweep_eq_or_updates_lt kind mask visits ⟨marker, 0⟩ with hsame | hmore
  · exact hsame
  · exact absurd h (Nat.pos_iff_ne_zero.mp hmore)

theorem marker_backwardSweep_of_updates_eq_zero {visits : List (Visit n)} {queue : Queue n}
    (h : (backwardSweep kind mask visits marker queue).updates = 0) :
    (backwardSweep kind mask visits marker queue).marker = marker := by
  rw [toSwept_backwardSweep] at h ⊢
  rw [forwardSweep_eq_of_updates_eq_zero h]

/-- If nothing is counted nothing has changed. -/
theorem marker_propagate_of_stats_eq_zero
    (h : (propagate kind schedule mask marker).2 = ⟨0, 0, 0, 0, 0⟩) :
    (propagate kind schedule mask marker).1 = marker := by
  have hforward := forwardSweep_eq_of_updates_eq_zero (congrArg Stats.forwardUpdates h)
  have hbackward := marker_backwardSweep_of_updates_eq_zero (congrArg Stats.backwardUpdates h)
  have hseeds := congrArg Stats.seeds h
  simp only [propagate] at hseeds ⊢
  rw [Queue.size_eq_length, List.length_eq_zero_iff] at hseeds
  rw [drain_eq_of_empty hseeds]
  exact hbackward.trans (congrArg Swept.marker hforward)

theorem quiet_propagate (kind : Kind) (hschedule : schedule.Follows adjacent)
    (hmask : AllOrdered mask) (hmarker : AllOrdered marker) :
    Quiet kind adjacent mask (propagate kind schedule mask marker).1 := by
  obtain ⟨hordered, hlevel⟩ := propagate_spec hschedule kind hmask hmarker
  rw [quiet_iff_stable hmask hordered]
  refine ⟨?_, stable_of_le_iff_reached hlevel⟩
  intro p
  exact ((hlevel _ p).mp le_rfl).le_mask

theorem stats_propagate_eq_zero_iff (hschedule : schedule.Follows adjacent)
    (hmask : AllOrdered mask) (hmarker : AllOrdered marker) :
    (propagate kind schedule mask marker).2 = ⟨0, 0, 0, 0, 0⟩ ↔
      Quiet kind adjacent mask marker := by
  constructor
  · intro hzero
    have hend := quiet_propagate kind hschedule hmask hmarker
    rwa [marker_propagate_of_stats_eq_zero hzero] at hend
  · intro h
    rw [h.propagate_eq hmask hmarker hschedule]

end Morphology
