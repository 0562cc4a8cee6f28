import Mathlib.Data.Set.Insert
import Morphology.Proofs.Propagation.Reach
import Morphology.Proofs.Queue
import Morphology.Propagation

/-! A sweep cuts every element at its mask and changes nothing of what the marker reaches. The
backward sweep queues every element that could still raise a neighbor. -/

namespace Morphology

variable {α : Type} [Pixel α] {n : Nat} {kind : Kind} {adjacent : Fin n → Fin n → Prop}
  {mask start marker : Vector α n}

/-- Of the neighbors of an element a sweep knows exactly those that it has seen. -/
inductive Chronological (adjacent : Fin n → Fin n → Prop) :
    Set (Fin n) → List (Visit n) → Prop where
  | nil (seen) : Chronological adjacent seen []
  | cons {seen visit rest}
      (passed : ∀ q, q ∈ visit.passed ↔ adjacent visit.index q ∧ q ∈ seen)
      (next : Chronological adjacent (insert visit.index seen) rest) :
      Chronological adjacent seen (visit :: rest)

theorem seen_or_mem {seen : Set (Fin n)} {visit : Visit n} {rest : List (Visit n)}
    (h : ∀ p, p ∈ seen ∨ p ∈ (visit :: rest).map Visit.index) (p : Fin n) :
    p ∈ insert visit.index seen ∨ p ∈ rest.map Visit.index := by
  rcases h p with hp | hp
  · exact .inl (Set.mem_insert_of_mem _ hp)
  · rcases List.mem_cons.mp hp with rfl | hp
    · exact .inl (Set.mem_insert _ _)
    · exact .inr hp

/-- What holds before a sweep and through each of its visits holds after it, of all elements. A
sweep whose visits are in some order meets every element after all that it has seen. -/
theorem Chronological.run_of_pairwise {σ : Type} {step : σ → Visit n → σ}
    {r : Fin n → Fin n → Prop} {seen : Set (Fin n)} {visits : List (Visit n)}
    (hvisits : Chronological adjacent seen visits)
    (hsorted : (visits.map Visit.index).Pairwise r)
    (hseen : ∀ p ∈ seen, ∀ q ∈ visits.map Visit.index, r p q)
    (hall : ∀ p, p ∈ seen ∨ p ∈ visits.map Visit.index) (P : Set (Fin n) → σ → Prop)
    (hstep : ∀ seen s visit, (∀ p ∈ seen, r p visit.index) →
      (∀ q, q ∈ visit.passed ↔ adjacent visit.index q ∧ q ∈ seen) →
      P seen s → P (insert visit.index seen) (step s visit))
    {s : σ} (h : P seen s) : P Set.univ (visits.foldl step s) := by
  induction hvisits generalizing s with
  | nil seen =>
      have huniv : seen = Set.univ := Set.eq_univ_of_forall fun p => by simpa using hall p
      rwa [huniv] at h
  | @cons seen visit rest hpassed _ ih =>
      rw [List.map_cons, List.pairwise_cons] at hsorted
      have hbefore : ∀ p ∈ seen, r p visit.index := fun p hp => hseen p hp _ (by simp)
      refine ih hsorted.2 ?_ (seen_or_mem hall) (hstep _ _ _ hbefore hpassed h)
      intro p hp q hq
      rcases Set.mem_insert_iff.mp hp with rfl | hp
      · exact hsorted.1 q hq
      · exact hseen p hp q (by simp only [List.map_cons, List.mem_cons, hq, or_true])

theorem Chronological.run {σ : Type} {step : σ → Visit n → σ} {seen : Set (Fin n)}
    {visits : List (Visit n)} (hvisits : Chronological adjacent seen visits)
    (hall : ∀ p, p ∈ seen ∨ p ∈ visits.map Visit.index) (P : Set (Fin n) → σ → Prop)
    (hstep : ∀ seen s visit, (∀ q, q ∈ visit.passed ↔ adjacent visit.index q ∧ q ∈ seen) →
      P seen s → P (insert visit.index seen) (step s visit))
    {s : σ} (h : P seen s) : P Set.univ (visits.foldl step s) := by
  have hsorted : (visits.map Visit.index).Pairwise fun _ _ => True :=
    List.pairwise_of_forall fun _ _ => trivial
  exact hvisits.run_of_pairwise hsorted (fun _ _ _ _ => trivial) hall P
    (fun seen s visit _ => hstep seen s visit) h

theorem settled_eq (kind : Kind) (mask marker : Vector α n) (visit : Visit n) :
    settled kind mask marker visit =
      kind.clamp ((visit.passed.map marker.get).foldl kind.combine (marker.get visit.index))
        (mask.get visit.index) := by
  rw [settled, List.foldl_map]

theorem ordered_settled (kind : Kind) (mask : Vector α n) {visit : Visit n}
    (h : Pixel.Ordered (marker.get visit.index)) :
    Pixel.Ordered (settled kind mask marker visit) := by
  rw [settled_eq]
  exact Kind.ordered_clamp (Kind.ordered_foldl_combine kind _ h)

theorem le_level_settled_iff (kind : Kind) (hmask : AllOrdered mask)
    (hmarker : AllOrdered marker) (visit : Visit n) {t : Int} :
    t ≤ kind.level (settled kind mask marker visit) ↔
      (t ≤ levels kind marker visit.index ∨ ∃ q ∈ visit.passed, t ≤ levels kind marker q) ∧
        t ≤ levels kind mask visit.index := by
  have hpassed : ∀ a ∈ visit.passed.map marker.get, Pixel.Ordered a :=
    fun _ => ordered_of_mem_map hmarker
  rw [settled_eq, Kind.level_clamp (Kind.ordered_foldl_combine kind _ (hmarker _)) (hmask _),
    le_min_iff, Kind.le_level_foldl_combine_iff kind hpassed (hmarker _)]
  simp only [List.mem_map, exists_exists_and_eq_and, levels]

theorem ordered_write {s : Swept α n} (hs : AllOrdered s.marker) {a : α}
    (ha : Pixel.Ordered a) (i : Fin n) : AllOrdered (s.write i a).marker := by
  rw [Swept.write]
  split
  · exact hs
  · exact allOrdered_set hs ha i

theorem levels_write (kind : Kind) {s : Swept α n} (hs : AllOrdered s.marker) {a : α}
    (ha : Pixel.Ordered a) (i : Fin n) :
    levels kind (s.write i a).marker =
      Function.update (levels kind s.marker) i (kind.level a) := by
  rw [Swept.write]
  split
  · next heq =>
      rw [(Kind.eq_iff kind ha (hs i)).mp heq]
      exact (Function.update_eq_self i (levels kind s.marker)).symm
  · exact levels_set kind s.marker i a

/-! ## The marker of a sweep -/

/-- After some visits all seen elements respect the mask, and the marker reaches as far as the one
that the sweep started from. -/
structure SweepInvariant (kind : Kind) (adjacent : Fin n → Fin n → Prop)
    (mask start : Vector α n) (seen : Set (Fin n)) (marker : Vector α n) : Prop where
  ordered : AllOrdered marker
  below : ∀ p ∈ seen, levels kind marker p ≤ levels kind mask p
  reach : ∀ t p, Reached adjacent (levels kind mask) (levels kind marker) t p ↔
    Reached adjacent (levels kind mask) (levels kind start) t p

theorem sweepInvariant_start (hstart : AllOrdered start) :
    SweepInvariant kind adjacent mask start ∅ start :=
  ⟨hstart, by simp, fun _ _ => Iff.rfl⟩

theorem SweepInvariant.step {seen : Set (Fin n)} {s : Swept α n} {visit : Visit n}
    (h : SweepInvariant kind adjacent mask start seen s.marker) (hmask : AllOrdered mask)
    (hsymm : ∀ p q, adjacent p q → adjacent q p)
    (hpassed : ∀ q ∈ visit.passed, adjacent visit.index q ∧ q ∈ seen) :
    SweepInvariant kind adjacent mask start (insert visit.index seen)
      (sweepStep kind mask s visit).marker := by
  have hvalue := ordered_settled kind mask (h.ordered visit.index)
  have hlevel (t : Int) := le_level_settled_iff kind hmask h.ordered visit (t := t)
  refine ⟨ordered_write h.ordered hvalue _, ?_, ?_⟩
  · intro p hp
    rw [sweepStep, levels_write kind h.ordered hvalue]
    by_cases hpv : p = visit.index
    · rw [hpv, Function.update_self]
      exact ((hlevel _).mp le_rfl).2
    · rw [Function.update_of_ne hpv]
      exact h.below p (Set.mem_of_mem_insert_of_ne hp hpv)
  · intro t p
    rw [sweepStep, levels_write kind h.ordered hvalue, ← h.reach]
    apply reached_update_iff
    · exact (hlevel _).mpr ⟨.inl (min_le_left _ _), min_le_right _ _⟩
    · intro t ht hmask
      rcases ((hlevel t).mp ht).1 with hown | ⟨q, hq, hneighbor⟩
      · exact .source hown hmask
      · obtain ⟨hadj, hseen⟩ := hpassed q hq
        exact .step (.source hneighbor (hneighbor.trans (h.below q hseen))) (hsymm _ _ hadj) hmask

theorem SweepInvariant.run {seen : Set (Fin n)} {visits : List (Visit n)} {s : Swept α n}
    (h : SweepInvariant kind adjacent mask start seen s.marker) (hmask : AllOrdered mask)
    (hsymm : ∀ p q, adjacent p q → adjacent q p) (hvisits : Chronological adjacent seen visits)
    (hall : ∀ p, p ∈ seen ∨ p ∈ visits.map Visit.index) :
    SweepInvariant kind adjacent mask start Set.univ
      (visits.foldl (sweepStep kind mask) s).marker := by
  apply hvisits.run hall
    (fun seen (s : Swept α n) => SweepInvariant kind adjacent mask start seen s.marker) _ h
  intro seen s visit hpassed hs
  exact hs.step hmask hsymm fun q hq => (hpassed q).mp hq

/-! ## The queue of the backward sweep -/

/-- Moreover every seen element that could raise a seen neighbor waits in the queue. -/
structure SeedInvariant (kind : Kind) (adjacent : Fin n → Fin n → Prop)
    (mask start : Vector α n) (seen : Set (Fin n)) (s : Seeded α n) : Prop
    extends SweepInvariant kind adjacent mask start seen s.marker where
  consistent : s.queue.Consistent
  seeded : ∀ p ∈ seen, ∀ q ∈ seen, adjacent p q → levels kind s.marker q < levels kind s.marker p →
    levels kind s.marker q < levels kind mask q → p ∈ s.queue.toList

theorem toSwept_seedStep (s : Seeded α n) (visit : Visit n) :
    (seedStep kind mask s visit).toSwept = sweepStep kind mask s.toSwept visit := by
  simp only [seedStep, sweepStep]
  split <;> rfl

theorem improves_iff (hmask : AllOrdered mask) (hmarker : AllOrdered marker) {a : α}
    (ha : Pixel.Ordered a) (q : Fin n) :
    improves kind mask marker a q = true ↔
      levels kind marker q < kind.level a ∧ levels kind marker q < levels kind mask q := by
  rw [improves, Bool.and_eq_true, Kind.precedes_iff (hmarker q) ha,
    Kind.precedes_iff (hmarker q) (hmask q)]
  rfl

theorem consistent_seedStep {s : Seeded α n} (h : s.queue.Consistent) (visit : Visit n) :
    (seedStep kind mask s visit).queue.Consistent := by
  simp only [seedStep]
  split
  · exact h.push _
  · exact h

theorem mem_queue_seedStep {s : Seeded α n} (h : s.queue.Consistent) {visit : Visit n}
    {p : Fin n} :
    p ∈ (seedStep kind mask s visit).queue.toList ↔ p ∈ s.queue.toList ∨ p = visit.index ∧
      visit.passed.any (improves kind mask (sweepStep kind mask s.toSwept visit).marker
        (settled kind mask s.marker visit)) = true := by
  simp only [seedStep, sweepStep]
  split
  · next hany => simp [Queue.mem_toList_push h, hany]
  · next hany => simp [hany]

theorem seedInvariant_start (hstart : AllOrdered start) :
    SeedInvariant kind adjacent mask start ∅ ⟨⟨start, 0⟩, Queue.empty n⟩ :=
  ⟨sweepInvariant_start hstart, Queue.consistent_empty, by simp⟩

theorem SeedInvariant.step {seen : Set (Fin n)} {s : Seeded α n} {visit : Visit n}
    (h : SeedInvariant kind adjacent mask start seen s) (hmask : AllOrdered mask)
    (hsymm : ∀ p q, adjacent p q → adjacent q p)
    (hpassed : ∀ q, q ∈ visit.passed ↔ adjacent visit.index q ∧ q ∈ seen) :
    SeedInvariant kind adjacent mask start (insert visit.index seen)
      (seedStep kind mask s visit) := by
  have hswept : (seedStep kind mask s visit).marker =
      (sweepStep kind mask s.toSwept visit).marker :=
    congrArg Swept.marker (toSwept_seedStep s visit)
  have hsweep := h.toSweepInvariant.step hmask hsymm fun q hq => (hpassed q).mp hq
  have hvalue := ordered_settled kind mask (h.ordered visit.index)
  have hlevels := levels_write kind h.ordered hvalue visit.index
  refine ⟨hswept ▸ hsweep, consistent_seedStep h.consistent visit, ?_⟩
  intro p hp q hq hadj hbehind hroom
  rw [hswept] at hbehind hroom
  rw [mem_queue_seedStep h.consistent]
  by_cases hpv : p = visit.index
  · -- The visited element sees the neighbor itself.
    refine .inr ⟨hpv, List.any_eq_true.mpr ⟨q, ?_, ?_⟩⟩
    · have hqv : q ≠ visit.index := by
        rintro rfl
        rw [hpv] at hbehind
        exact lt_irrefl _ hbehind
      exact (hpassed q).mpr ⟨hpv ▸ hadj, Set.mem_of_mem_insert_of_ne hq hqv⟩
    · refine (improves_iff hmask hsweep.ordered hvalue q).mpr ⟨?_, hroom⟩
      have hself : levels kind (sweepStep kind mask s.toSwept visit).marker p =
          kind.level (settled kind mask s.marker visit) := by
        rw [sweepStep, hlevels, hpv, Function.update_self]
      rwa [hself] at hbehind
  · have hps : p ∈ seen := Set.mem_of_mem_insert_of_ne hp hpv
    rw [sweepStep, hlevels, Function.update_of_ne hpv] at hbehind
    rw [sweepStep, hlevels] at hroom
    by_cases hqv : q = visit.index
    · -- The visited element has just taken what the neighbor offers.
      rw [hqv, Function.update_self] at hbehind hroom
      have htaken : min (levels kind s.marker p) (levels kind mask visit.index) ≤
          kind.level (settled kind mask s.marker visit) :=
        (le_level_settled_iff kind hmask h.ordered visit).mpr
          ⟨.inr ⟨p, (hpassed p).mpr ⟨hsymm _ _ (hqv ▸ hadj), hps⟩, min_le_left _ _⟩,
            min_le_right _ _⟩
      exact absurd (htaken.trans_lt' (lt_min hbehind hroom)) (lt_irrefl _)
    · rw [Function.update_of_ne hqv] at hbehind hroom
      exact .inl (h.seeded p hps q (Set.mem_of_mem_insert_of_ne hq hqv) hadj hbehind hroom)

theorem SeedInvariant.run {seen : Set (Fin n)} {visits : List (Visit n)} {s : Seeded α n}
    (h : SeedInvariant kind adjacent mask start seen s) (hmask : AllOrdered mask)
    (hsymm : ∀ p q, adjacent p q → adjacent q p) (hvisits : Chronological adjacent seen visits)
    (hall : ∀ p, p ∈ seen ∨ p ∈ visits.map Visit.index) :
    SeedInvariant kind adjacent mask start Set.univ (visits.foldl (seedStep kind mask) s) := by
  apply hvisits.run hall (SeedInvariant kind adjacent mask start) _ h
  intro seen s visit hpassed hs
  exact hs.step hmask hsymm hpassed

end Morphology
