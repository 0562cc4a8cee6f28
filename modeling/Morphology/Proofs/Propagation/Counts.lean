import Mathlib.Data.Fintype.Card
import Morphology.Proofs.Propagation.Quiet

/-! What the counters of the passes say: every change is counted, every index that is queued is
popped, and whatever is queued at first can still raise a neighbor. -/

namespace Morphology

variable {α : Type} [Pixel α] {n : Nat} {kind : Kind} {adjacent : Fin n → Fin n → Prop}
  {schedule : Schedule n} {mask start marker : Vector α n}

theorem Pixel.eq_trans {a b c : α} (hab : Pixel.eq a b = true) (hbc : Pixel.eq b c = true) :
    Pixel.eq a c = true := by
  cases ha : Pixel.rank a <;> cases hb : Pixel.rank b <;> cases hc : Pixel.rank c <;>
    simp_all [Pixel.eq]

/-- The elements whose values do not compare equal. -/
def differing (v w : Vector α n) : Finset (Fin n) :=
  Finset.univ.filter fun p => Pixel.eq (v.get p) (w.get p) = false

theorem mem_differing_iff {v w : Vector α n} {p : Fin n} :
    p ∈ differing v w ↔ Pixel.eq (v.get p) (w.get p) = false := by
  simp [differing]

theorem differing_eq_empty_iff {v w : Vector α n} : differing v w = ∅ ↔ SameValues v w := by
  simp [Finset.eq_empty_iff_forall_notMem, mem_differing_iff, SameValues]

theorem differing_self (h : AllOrdered marker) : differing marker marker = ∅ :=
  differing_eq_empty_iff.mpr ((sameValues_iff .dilation h h).mpr rfl)

theorem card_differing_le_add (u v w : Vector α n) :
    (differing u w).card ≤ (differing u v).card + (differing v w).card := by
  have hsubset : differing u w ⊆ differing u v ∪ differing v w := by
    intro p hp
    rw [Finset.mem_union]
    by_contra hsame
    simp only [mem_differing_iff, not_or, Bool.not_eq_false] at hp hsame
    rw [Pixel.eq_trans hsame.1 hsame.2] at hp
    cases hp
  exact (Finset.card_le_card hsubset).trans (Finset.card_union_le _ _)

theorem card_differing_set_le (v w : Vector α n) (i : Fin n) (a : α) :
    (differing v (w.set i a i.isLt)).card ≤ (differing v w).card + 1 := by
  have hsubset : differing v (w.set i a i.isLt) ⊆ insert i (differing v w) := by
    intro p hp
    rw [mem_differing_iff, get_set] at hp
    rw [Finset.mem_insert, mem_differing_iff]
    split at hp
    · next hpi => exact .inl hpi
    · exact .inr hp
  exact (Finset.card_le_card hsubset).trans (Finset.card_insert_le _ _)

/-- There are as many updates as elements that have changed, or more. -/
def CountsChanges (start : Vector α n) (s : Swept α n) : Prop :=
  (differing start s.marker).card ≤ s.updates

theorem countsChanges_start (h : AllOrdered start) : CountsChanges start ⟨start, 0⟩ := by
  rw [CountsChanges, differing_self h, Finset.card_empty]

theorem CountsChanges.write {s : Swept α n} (h : CountsChanges start s) (i : Fin n) (a : α) :
    CountsChanges start (s.write i a) := by
  rw [Swept.write]
  split
  · exact h
  · exact (card_differing_set_le start s.marker i a).trans (Nat.succ_le_succ h)

theorem CountsChanges.sweep {s : Swept α n} (h : CountsChanges start s) (kind : Kind)
    (mask : Vector α n) (visits : List (Visit n)) :
    CountsChanges start (visits.foldl (sweepStep kind mask) s) := by
  induction visits generalizing s with
  | nil => exact h
  | cons visit visits ih => exact ih (h.write visit.index _)

theorem CountsChanges.offer {s : Drained α n} (h : CountsChanges start s.toSwept) (kind : Kind)
    (mask : Vector α n) (a : α) (q : Fin n) :
    CountsChanges start (Morphology.offer kind mask a s q).toSwept := by
  rw [Morphology.offer]
  split
  · exact (card_differing_set_le start s.marker q _).trans (Nat.succ_le_succ h)
  · exact h

theorem CountsChanges.offers {s : Drained α n} (h : CountsChanges start s.toSwept) (kind : Kind)
    (mask : Vector α n) (a : α) (order : List (Fin n)) :
    CountsChanges start (order.foldl (Morphology.offer kind mask a) s).toSwept := by
  induction order generalizing s with
  | nil => exact h
  | cons q rest ih => exact ih (h.offer kind mask a q)

theorem CountsChanges.run {neighbors : Fin n → List (Fin n)} {s t : Drained α n} {m : Nat}
    (h : CountsChanges start s.toSwept) (hrun : AnyOrderRun kind mask neighbors s m t) :
    CountsChanges start t.toSwept := by
  induction hrun with
  | refl => exact h
  | @tail m t u _ hstep ih =>
      cases hstep with
      | @handle p queue order _ _ _ =>
          have hpopped : CountsChanges start
              ({ t with queue, pops := t.pops + 1 } : Drained α n).toSwept := ih
          exact hpopped.offers kind mask _ order

theorem updates_sweep_le (kind : Kind) (mask : Vector α n) (visits : List (Visit n))
    (s : Swept α n) :
    (visits.foldl (sweepStep kind mask) s).updates ≤ s.updates + visits.length := by
  induction visits generalizing s with
  | nil => exact le_rfl
  | cons visit visits ih =>
      have hstep : (sweepStep kind mask s visit).updates ≤ s.updates + 1 := by
        rw [sweepStep, Swept.write]
        split
        · exact Nat.le_succ _
        · exact le_rfl
      have hrest := ih (sweepStep kind mask s visit)
      rw [List.foldl_cons, List.length_cons]
      omega

/-! ## Every queued index is popped -/

theorem size_le_size_push (q : Queue n) (i : Fin n) : q.size ≤ (q.push i).2.size := by
  rw [Queue.size_eq_length, Queue.size_eq_length, Queue.toList_push]
  split
  · exact le_rfl
  · simp

theorem size_le_size_offers (kind : Kind) (mask : Vector α n) (a : α) (order : List (Fin n))
    (s : Drained α n) :
    s.queue.size ≤ (order.foldl (offer kind mask a) s).queue.size := by
  induction order generalizing s with
  | nil => exact le_rfl
  | cons q rest ih =>
      refine le_trans ?_ (ih (offer kind mask a s q))
      rw [offer]
      split
      · exact size_le_size_push s.queue q
      · exact le_rfl

theorem pops_add_size_le_of_run {neighbors : Fin n → List (Fin n)} {s t : Drained α n} {m : Nat}
    (hrun : AnyOrderRun kind mask neighbors s m t) :
    s.pops + s.queue.size ≤ t.pops + t.queue.size := by
  induction hrun with
  | refl => exact le_rfl
  | @tail m t u _ hstep ih =>
      cases hstep with
      | @handle p queue order hwaits hremoved _ =>
          have hsize := hremoved.size hwaits
          have hoffers := size_le_size_offers kind mask (t.marker.get p) order
            { t with queue, pops := t.pops + 1 }
          rw [pops_offers]
          simp only at hoffers ⊢
          omega

/-! ## Seeds can raise a neighbor -/

/-- The second element is a neighbor that the first one could still raise. -/
structure Open (kind : Kind) (adjacent : Fin n → Fin n → Prop) (mask marker : Vector α n)
    (p q : Fin n) : Prop where
  adjacent : adjacent p q
  behind : levels kind marker q < levels kind marker p
  room : levels kind marker q < levels kind mask q

/-- Every waiting element has been seen and could raise a neighbor that has been seen. -/
def SeedsOpen (kind : Kind) (adjacent : Fin n → Fin n → Prop) (mask : Vector α n)
    (seen : Set (Fin n)) (s : Seeded α n) : Prop :=
  ∀ p ∈ s.queue.toList, p ∈ seen ∧ ∃ q ∈ seen, Open kind adjacent mask s.marker p q

theorem SeedsOpen.step {seen : Set (Fin n)} {s : Seeded α n} {visit : Visit n}
    (h : SeedsOpen kind adjacent mask seen s)
    (hseeds : SeedInvariant kind adjacent mask start seen s) (hmask : AllOrdered mask)
    (hnew : visit.index ∉ seen)
    (hpassed : ∀ q, q ∈ visit.passed ↔ adjacent visit.index q ∧ q ∈ seen) :
    SeedsOpen kind adjacent mask (insert visit.index seen) (seedStep kind mask s visit) := by
  have hvalue := ordered_settled kind mask (hseeds.ordered visit.index)
  have hswept : (seedStep kind mask s visit).marker =
      (sweepStep kind mask s.toSwept visit).marker :=
    congrArg Swept.marker (toSwept_seedStep s visit)
  have hlevels : levels kind (sweepStep kind mask s.toSwept visit).marker =
      Function.update (levels kind s.marker) visit.index
        (kind.level (settled kind mask s.marker visit)) :=
    levels_write kind hseeds.ordered hvalue visit.index
  have hkept (x) (hx : x ∈ seen) :
      levels kind (seedStep kind mask s visit).marker x = levels kind s.marker x := by
    have hxv : x ≠ visit.index := fun heq => hnew (heq ▸ hx)
    rw [hswept, hlevels, Function.update_of_ne hxv]
  intro p hp
  rcases (mem_queue_seedStep hseeds.consistent).mp hp with hold | ⟨rfl, hany⟩
  · -- An element that waited already has its neighbor among those that are not visited again.
    obtain ⟨hpseen, q, hqseen, hadj, hbehind, hroom⟩ := h p hold
    refine ⟨Set.mem_insert_of_mem _ hpseen, q, Set.mem_insert_of_mem _ hqseen, hadj, ?_, ?_⟩
    · rwa [hkept p hpseen, hkept q hqseen]
    · rwa [hkept q hqseen]
  · obtain ⟨q, hq, himproves⟩ := List.any_eq_true.mp hany
    obtain ⟨hadj, hqseen⟩ := (hpassed q).mp hq
    have hordered : AllOrdered (sweepStep kind mask s.toSwept visit).marker :=
      ordered_write hseeds.ordered hvalue visit.index
    obtain ⟨hbehind, hroom⟩ := (improves_iff hmask hordered hvalue q).mp himproves
    refine ⟨Set.mem_insert _ _, q, Set.mem_insert_of_mem _ hqseen, hadj, ?_, ?_⟩
    · rwa [hswept, hlevels, Function.update_self, ← hlevels]
    · rwa [hswept]

theorem exists_open_of_mem_seeds (hschedule : schedule.Follows adjacent)
    (hnodup : (schedule.backward.map Visit.index).Nodup) (kind : Kind) (hmask : AllOrdered mask)
    (hmarker : AllOrdered marker) {p : Fin n}
    (hp : p ∈ (backwardSweep kind mask schedule.backward marker (Queue.empty n)).queue.toList) :
    ∃ q, Open kind adjacent mask
      (backwardSweep kind mask schedule.backward marker (Queue.empty n)).marker p q := by
  let P (seen : Set (Fin n)) (s : Seeded α n) : Prop :=
    SeedInvariant kind adjacent mask marker seen s ∧ SeedsOpen kind adjacent mask seen s
  have hstart : P ∅ ⟨⟨marker, 0⟩, Queue.empty n⟩ :=
    ⟨seedInvariant_start hmarker, fun p hp => by simp at hp⟩
  have hend := hschedule.backward.run_of_pairwise hnodup (by simp)
    (fun p => .inr (hschedule.mem_backward p)) P
    (fun seen s visit hnew hpassed h =>
      ⟨h.1.step hmask hschedule.symm hpassed,
        h.2.step h.1 hmask (fun hseen => hnew _ hseen rfl) hpassed⟩) hstart
  obtain ⟨_, q, _, hopen⟩ := hend.2 p hp
  exact ⟨q, hopen⟩

/-! ## All passes -/

theorem length_le_of_nodup {visits : List (Visit n)} (h : (visits.map Visit.index).Nodup) :
    visits.length ≤ n := by
  simpa using h.length_le_card

theorem updates_forwardSweep_le (kind : Kind) (mask marker : Vector α n) {visits : List (Visit n)}
    (h : (visits.map Visit.index).Nodup) : (forwardSweep kind mask visits marker).updates ≤ n := by
  have hupdates := updates_sweep_le kind mask visits ⟨marker, 0⟩
  exact hupdates.trans ((Nat.zero_add _).trans_le (length_le_of_nodup h))

theorem updates_backwardSweep_le (kind : Kind) (mask marker : Vector α n)
    {visits : List (Visit n)} (queue : Queue n) (h : (visits.map Visit.index).Nodup) :
    (backwardSweep kind mask visits marker queue).updates ≤ n := by
  rw [toSwept_backwardSweep]
  exact updates_forwardSweep_le kind mask marker h

theorem countsChanges_forwardSweep (kind : Kind) (mask : Vector α n) (visits : List (Visit n))
    (h : AllOrdered marker) : CountsChanges marker (forwardSweep kind mask visits marker) :=
  (countsChanges_start h).sweep kind mask visits

theorem countsChanges_backwardSweep (kind : Kind) (mask : Vector α n) (visits : List (Visit n))
    (queue : Queue n) (h : AllOrdered marker) :
    CountsChanges marker (backwardSweep kind mask visits marker queue).toSwept := by
  rw [toSwept_backwardSweep]
  exact countsChanges_forwardSweep kind mask visits h

theorem countsChanges_drain (kind : Kind) (mask : Vector α n) (neighbors : Fin n → List (Fin n))
    (queue : Queue n) (h : AllOrdered marker) :
    CountsChanges marker (drain kind mask neighbors marker queue).toSwept := by
  have hstart : CountsChanges marker (⟨⟨⟨marker, 0⟩, queue⟩, 0⟩ : Drained α n).toSwept :=
    countsChanges_start h
  obtain ⟨m, hrun⟩ := drain_run kind mask marker neighbors queue
  exact hstart.run hrun

theorem pops_drain_bounds (kind : Kind) (neighbors : Fin n → List (Fin n)) (queue : Queue n)
    (hmask : AllOrdered mask) (hmarker : AllOrdered marker) :
    queue.size ≤ (drain kind mask neighbors marker queue).pops ∧
      (drain kind mask neighbors marker queue).pops ≤
        queue.size + (drain kind mask neighbors marker queue).updates := by
  obtain ⟨m, hrun⟩ := drain_run kind mask marker neighbors queue
  have hempty : (drain kind mask neighbors marker queue).queue.size = 0 := by
    rw [Queue.size_eq_length, drain_queue_empty hmask hmarker]
    rfl
  have hkept := pops_add_size_le_of_run hrun
  have hpaid := (accounts_run hmask hmarker hrun).1.pops_le
  simp only [hempty] at hkept hpaid
  omega

section Run

variable (hschedule : schedule.Follows adjacent) (kind : Kind) (hmask : AllOrdered mask)
  (hmarker : AllOrdered marker)

include hschedule hmask hmarker

theorem ordered_afterSweeps : AllOrdered (afterSweeps kind schedule mask marker).marker :=
  (drainInvariant_afterSweeps hschedule kind hmask hmarker).ordered

/-- Every element that is changed by some pass is counted by that pass. -/
theorem card_differing_propagate_le :
    (differing marker (propagate kind schedule mask marker).1).card ≤
      (propagate kind schedule mask marker).2.totalUpdates := by
  let swept := forwardSweep kind mask schedule.forward marker
  let seeded := backwardSweep kind mask schedule.backward swept.marker (Queue.empty n)
  have hswept : AllOrdered swept.marker :=
    (sweepInvariant_forwardSweep hschedule kind hmask hmarker).ordered
  calc (differing marker (propagate kind schedule mask marker).1).card
      ≤ (differing marker seeded.marker).card +
          (differing seeded.marker (propagate kind schedule mask marker).1).card :=
        card_differing_le_add _ _ _
    _ ≤ (differing marker swept.marker).card + (differing swept.marker seeded.marker).card +
          (differing seeded.marker (propagate kind schedule mask marker).1).card :=
        Nat.add_le_add_right (card_differing_le_add _ _ _) _
    _ ≤ (propagate kind schedule mask marker).2.totalUpdates :=
        Nat.add_le_add (Nat.add_le_add (countsChanges_forwardSweep kind mask _ hmarker)
          (countsChanges_backwardSweep kind mask _ _ hswept))
          (countsChanges_drain kind mask _ _ (ordered_afterSweeps hschedule kind hmask hmarker))

theorem totalUpdates_eq_zero_iff :
    (propagate kind schedule mask marker).2.totalUpdates = 0 ↔
      SameValues marker (propagate kind schedule mask marker).1 := by
  constructor
  · intro hzero
    have hchanges := card_differing_propagate_le hschedule kind hmask hmarker
    rw [hzero, Nat.le_zero, Finset.card_eq_zero] at hchanges
    exact differing_eq_empty_iff.mp hchanges
  · intro hsame
    obtain ⟨hordered, _⟩ := propagate_spec hschedule kind hmask hmarker
    have hquiet := quiet_propagate kind hschedule hmask hmarker
    rw [quiet_iff_stable hmask hordered, ← (sameValues_iff kind hmarker hordered).mp hsame,
      ← quiet_iff_stable hmask hmarker] at hquiet
    rw [hquiet.propagate_eq hmask hmarker hschedule]
    rfl

/-- A drain that updates nothing had nothing to do: a seed could have raised a neighbor. -/
theorem seeds_eq_zero_of_queueUpdates (hnodup : (schedule.backward.map Visit.index).Nodup)
    (h : (propagate kind schedule mask marker).2.queueUpdates = 0) :
    (propagate kind schedule mask marker).2.seeds = 0 := by
  have hswept := (sweepInvariant_forwardSweep hschedule kind hmask hmarker).ordered
  have hready := ordered_afterSweeps hschedule kind hmask hmarker
  obtain ⟨hordered, _⟩ := propagate_spec hschedule kind hmask hmarker
  have hchanges := countsChanges_drain kind mask schedule.neighbors
    (afterSweeps kind schedule mask marker).queue hready
  have hsame : SameValues (afterSweeps kind schedule mask marker).marker
      (propagate kind schedule mask marker).1 :=
    differing_eq_empty_iff.mp (Finset.card_eq_zero.mp (Nat.le_zero.mp (hchanges.trans_eq h)))
  have hstable := ((quiet_iff_stable hmask hordered).mp
    (quiet_propagate kind hschedule hmask hmarker)).2
  rw [← (sameValues_iff kind hready hordered).mp hsame] at hstable
  change (backwardSweep kind mask schedule.backward _ _).queue.size = 0
  rw [Queue.size_eq_length, List.length_eq_zero_iff, List.eq_nil_iff_forall_not_mem]
  intro p hp
  obtain ⟨q, hadj, hbehind, hroom⟩ :=
    exists_open_of_mem_seeds hschedule hnodup kind hmask hswept hp
  exact absurd (lt_min hbehind hroom) (not_lt.mpr (hstable p q hadj))

end Run

/-- What the counts of a run say about its work. -/
structure Accounted (marker result : Vector α n) (stats : Stats) : Prop where
  changes_le : (differing marker result).card ≤ stats.totalUpdates
  total_eq_zero_iff : stats.totalUpdates = 0 ↔ SameValues marker result
  forward_le : stats.forwardUpdates ≤ n
  backward_le : stats.backwardUpdates ≤ n
  seeds_le : stats.seeds ≤ n
  seeds_le_pops : stats.seeds ≤ stats.pops
  pops_le : stats.pops ≤ stats.seeds + stats.queueUpdates
  pops_eq_zero_iff : stats.pops = 0 ↔ stats.seeds = 0
  queueUpdates_eq_zero_iff : stats.queueUpdates = 0 ↔ stats.seeds = 0

theorem accounted_propagate (hschedule : schedule.Follows adjacent)
    (hforward : (schedule.forward.map Visit.index).Nodup)
    (hbackward : (schedule.backward.map Visit.index).Nodup) (kind : Kind)
    (hmask : AllOrdered mask) (hmarker : AllOrdered marker) :
    Accounted marker (propagate kind schedule mask marker).1
      (propagate kind schedule mask marker).2 := by
  have hseeds := (drainInvariant_afterSweeps hschedule kind hmask hmarker).consistent.size_le
  obtain ⟨hpopped, hpaid⟩ := pops_drain_bounds kind schedule.neighbors
    (afterSweeps kind schedule mask marker).queue hmask
    (ordered_afterSweeps hschedule kind hmask hmarker)
  have hidle (h : (propagate kind schedule mask marker).2.seeds = 0) :
      (propagate kind schedule mask marker).2.pops = 0 ∧
        (propagate kind schedule mask marker).2.queueUpdates = 0 := by
    simp only [propagate, Queue.size_eq_length, List.length_eq_zero_iff] at h ⊢
    rw [drain_eq_of_empty h]
    exact ⟨rfl, rfl⟩
  exact {
    changes_le := card_differing_propagate_le hschedule kind hmask hmarker
    total_eq_zero_iff := totalUpdates_eq_zero_iff hschedule kind hmask hmarker
    forward_le := updates_forwardSweep_le kind mask marker hforward
    backward_le := updates_backwardSweep_le kind mask _ _ hbackward
    seeds_le := hseeds
    seeds_le_pops := hpopped
    pops_le := hpaid
    pops_eq_zero_iff := ⟨fun h => Nat.le_zero.mp (hpopped.trans_eq h), fun h => (hidle h).1⟩
    queueUpdates_eq_zero_iff :=
      ⟨seeds_eq_zero_of_queueUpdates hschedule kind hmask hmarker hbackward,
        fun h => (hidle h).2⟩ }

end Morphology
