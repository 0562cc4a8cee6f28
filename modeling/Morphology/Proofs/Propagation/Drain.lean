import Morphology.Proofs.Propagation.Sweeps

/-! Draining the queue in any order of elements and of their neighbors. What the marker reaches
never changes, so at an empty queue every order holds the same levels; the queue's own order is
one. -/

namespace Morphology

variable {α : Type} [Pixel α] {n : Nat} {kind : Kind} {adjacent : Fin n → Fin n → Prop}
  {neighbors : Fin n → List (Fin n)} {mask start : Vector α n}

/-- Any waiting element is removed, and its value is offered to its neighbors in any order. -/
inductive AnyOrderStep (kind : Kind) (mask : Vector α n) (neighbors : Fin n → List (Fin n))
    (s : Drained α n) : Drained α n → Prop where
  | handle {p : Fin n} {queue : Queue n} {order : List (Fin n)} (hwaits : p ∈ s.queue.toList)
      (hremoved : s.queue.Removed p queue) (horder : order.Perm (neighbors p)) :
      AnyOrderStep kind mask neighbors s
        (order.foldl (offer kind mask (s.marker.get p)) { s with queue, pops := s.pops + 1 })

/-- A number of steps in any order. -/
inductive AnyOrderRun (kind : Kind) (mask : Vector α n) (neighbors : Fin n → List (Fin n))
    (s : Drained α n) : Nat → Drained α n → Prop where
  | refl : AnyOrderRun kind mask neighbors s 0 s
  | tail {m t u} (h : AnyOrderRun kind mask neighbors s m t)
      (hstep : AnyOrderStep kind mask neighbors t u) : AnyOrderRun kind mask neighbors s (m + 1) u

theorem AnyOrderRun.head {s t u : Drained α n} {m : Nat}
    (hstep : AnyOrderStep kind mask neighbors s t) (h : AnyOrderRun kind mask neighbors t m u) :
    AnyOrderRun kind mask neighbors s (m + 1) u := by
  induction h with
  | refl => exact .tail .refl hstep
  | tail _ hnext ih => exact .tail ih hnext

theorem anyOrderStep_of_drainStep? {s t : Drained α n}
    (h : drainStep? kind mask neighbors s = some t) : AnyOrderStep kind mask neighbors s t := by
  rw [drainStep?] at h
  split at h
  · cases h
  · next p queue hpop =>
      rw [← Option.some.inj h]
      have hwaits : p ∈ s.queue.toList := by
        rw [Queue.toList_of_pop? hpop]
        exact List.mem_cons_self
      exact .handle hwaits (Queue.removed_of_pop? hpop) (List.Perm.refl _)

theorem exists_anyOrderStep {s : Drained α n} (h : s.queue.toList ≠ []) :
    ∃ t, AnyOrderStep kind mask neighbors s t := by
  obtain ⟨p, hp⟩ := List.exists_mem_of_ne_nil _ h
  exact ⟨_, .handle hp (Queue.removed_remove _ p) (List.Perm.refl _)⟩

theorem drainStep?_eq_none_iff {s : Drained α n} :
    drainStep? kind mask neighbors s = none ↔ s.queue.toList = [] := by
  rw [← Queue.pop?_eq_none_iff, drainStep?]
  split
  · next hpop => simp [hpop]
  · next hpop => simp [hpop]

/-- The queue's own order is a run, and ends only at an empty queue or for want of fuel. -/
theorem drainSteps_run (kind : Kind) (mask : Vector α n) (neighbors : Fin n → List (Fin n))
    (fuel : Nat) (s : Drained α n) :
    ∃ m, AnyOrderRun kind mask neighbors s m (drainSteps kind mask neighbors fuel s) ∧
      ((drainSteps kind mask neighbors fuel s).queue.toList = [] ∨ m = fuel) := by
  induction fuel generalizing s with
  | zero => exact ⟨0, .refl, .inr rfl⟩
  | succ fuel ih =>
      rw [drainSteps]
      split
      · next hnone => exact ⟨0, .refl, .inl (drainStep?_eq_none_iff.mp hnone)⟩
      · next t hsome =>
          obtain ⟨m, hrun, hend⟩ := ih t
          refine ⟨m + 1, hrun.head (anyOrderStep_of_drainStep? hsome), ?_⟩
          rcases hend with hempty | rfl
          · exact .inl hempty
          · exact .inr rfl

/-! ## One offer -/

theorem offer_iff (hmask : AllOrdered mask) {s : Drained α n} (hs : AllOrdered s.marker) {a : α}
    (ha : Pixel.Ordered a) (q : Fin n) :
    (kind.precedes (s.marker.get q) a && !Pixel.eq (s.marker.get q) (mask.get q)) = true ↔
      levels kind s.marker q < kind.level a ∧ levels kind s.marker q ≠ levels kind mask q := by
  rw [Bool.and_eq_true, Bool.not_eq_true', ← Bool.not_eq_true, Kind.precedes_iff (hs q) ha,
    Kind.eq_iff kind (hs q) (hmask q)]
  rfl

theorem levels_offer (kind : Kind) (hmask : AllOrdered mask) (marker : Vector α n) {a : α}
    (ha : Pixel.Ordered a) (q : Fin n) :
    levels kind (marker.set q (kind.clamp a (mask.get q)) q.isLt) =
      Function.update (levels kind marker) q (min (kind.level a) (levels kind mask q)) := by
  rw [levels_set, Kind.level_clamp ha (hmask q)]
  rfl

theorem SweepInvariant.raise {marker : Vector α n} {a : α} {p q : Fin n}
    (h : SweepInvariant kind adjacent mask start Set.univ marker) (hmask : AllOrdered mask)
    (ha : Pixel.Ordered a) (hp : levels kind marker p = kind.level a) (hadj : adjacent p q)
    (hbehind : levels kind marker q < kind.level a) :
    SweepInvariant kind adjacent mask start Set.univ
      (marker.set q (kind.clamp a (mask.get q)) q.isLt) := by
  have hbelow (x : Fin n) := h.below x (Set.mem_univ x)
  have hlevels := levels_offer kind hmask marker ha q
  refine ⟨allOrdered_set h.ordered (Kind.ordered_clamp ha) q, ?_, ?_⟩
  · intro x _
    rw [hlevels]
    by_cases hx : x = q
    · rw [hx, Function.update_self]
      exact min_le_right _ _
    · rw [Function.update_of_ne hx]
      exact hbelow x
  · intro t x
    rw [hlevels, ← h.reach]
    apply reached_update_iff
    · exact min_le_min hbehind.le le_rfl
    · intro t ht hpass
      have htp : t ≤ levels kind marker p := hp ▸ ht.trans (min_le_left _ _)
      exact .step (.source htp (htp.trans (hbelow p))) hadj hpass

/-! ## The reach of the marker -/

/-- The sweeps' work is done, and every element that could raise a neighbor waits in the queue, or
its offer to that neighbor is pending. -/
structure DrainInvariant (kind : Kind) (adjacent : Fin n → Fin n → Prop) (mask start : Vector α n)
    (pending : Fin n → Fin n → Prop) (s : Drained α n) : Prop
    extends SweepInvariant kind adjacent mask start Set.univ s.marker where
  consistent : s.queue.Consistent
  covered : ∀ p q, adjacent p q → levels kind s.marker q < levels kind s.marker p →
    levels kind s.marker q < levels kind mask q → p ∈ s.queue.toList ∨ pending p q

theorem DrainInvariant.taken {s : Drained α n} {p q : Fin n} {rest : List (Fin n)} {a : α}
    (h : DrainInvariant kind adjacent mask start (fun x y => x = p ∧ y ∈ q :: rest) s)
    (hmask : AllOrdered mask) (ha : Pixel.Ordered a) (hp : levels kind s.marker p = kind.level a)
    (hadj : adjacent p q) (hbehind : levels kind s.marker q < kind.level a)
    (hroom : levels kind s.marker q < levels kind mask q) :
    DrainInvariant kind adjacent mask start (fun x y => x = p ∧ y ∈ rest)
      { marker := s.marker.set q (kind.clamp a (mask.get q)) q.isLt
        updates := s.updates + 1
        queue := (s.queue.push q).2
        pops := s.pops } := by
  refine ⟨h.toSweepInvariant.raise hmask ha hp hadj hbehind, h.consistent.push q, ?_⟩
  intro x y hxy hlow hopen
  rw [Queue.mem_toList_push h.consistent]
  rw [levels_offer kind hmask s.marker ha q] at hlow hopen
  by_cases hx : x = q
  · exact .inl (.inr hx)
  · rw [Function.update_of_ne hx] at hlow
    by_cases hy : y = q
    · -- Whoever could still raise the neighbor could raise it before.
      rw [hy, Function.update_self] at hlow hopen
      have hold : levels kind s.marker q < min (kind.level a) (levels kind mask q) :=
        lt_min hbehind hroom
      rcases h.covered x q (hy ▸ hxy) (hold.trans hlow) hroom with hwaits | ⟨rfl, _⟩
      · exact .inl (.inl hwaits)
      · rw [hp] at hlow
        exact absurd (lt_min hlow hopen) (lt_irrefl _)
    · rw [Function.update_of_ne hy] at hlow hopen
      rcases h.covered x y hxy hlow hopen with hwaits | ⟨hxp, hmem⟩
      · exact .inl (.inl hwaits)
      · exact .inr ⟨hxp, (List.mem_cons.mp hmem).resolve_left hy⟩

theorem DrainInvariant.refused {s : Drained α n} {p q : Fin n} {rest : List (Fin n)}
    (h : DrainInvariant kind adjacent mask start (fun x y => x = p ∧ y ∈ q :: rest) s)
    (hrefused : ¬ (levels kind s.marker q < levels kind s.marker p ∧
      levels kind s.marker q < levels kind mask q)) :
    DrainInvariant kind adjacent mask start (fun x y => x = p ∧ y ∈ rest) s := by
  refine ⟨h.toSweepInvariant, h.consistent, ?_⟩
  intro x y hxy hlow hopen
  rcases h.covered x y hxy hlow hopen with hwaits | ⟨rfl, hmem⟩
  · exact .inl hwaits
  · rcases List.mem_cons.mp hmem with rfl | hmem
    · exact absurd ⟨hlow, hopen⟩ hrefused
    · exact .inr ⟨rfl, hmem⟩

/-- While an element is handled, what it has not yet offered is pending. -/
theorem DrainInvariant.offer {s : Drained α n} {p q : Fin n} {rest : List (Fin n)} {a : α}
    (h : DrainInvariant kind adjacent mask start (fun x y => x = p ∧ y ∈ q :: rest) s)
    (hmask : AllOrdered mask) (ha : Pixel.Ordered a) (hp : levels kind s.marker p = kind.level a)
    (hadj : adjacent p q) :
    DrainInvariant kind adjacent mask start (fun x y => x = p ∧ y ∈ rest)
        (Morphology.offer kind mask a s q) ∧
      levels kind (Morphology.offer kind mask a s q).marker p = kind.level a := by
  rw [Morphology.offer]
  split
  · next htaken =>
      obtain ⟨hbehind, hopen⟩ := (offer_iff hmask h.ordered ha q).mp htaken
      have hroom : levels kind s.marker q < levels kind mask q :=
        lt_of_le_of_ne (h.below q (Set.mem_univ q)) hopen
      have hpq : p ≠ q := by
        rintro rfl
        rw [hp] at hbehind
        exact lt_irrefl _ hbehind
      refine ⟨h.taken hmask ha hp hadj hbehind hroom, ?_⟩
      rw [levels_offer kind hmask s.marker ha q, Function.update_of_ne hpq]
      exact hp
  · next hrefused =>
      refine ⟨h.refused ?_, hp⟩
      rintro ⟨hbehind, hroom⟩
      rw [hp] at hbehind
      exact hrefused ((offer_iff hmask h.ordered ha q).mpr ⟨hbehind, hroom.ne⟩)

theorem DrainInvariant.offers {s : Drained α n} {p : Fin n} {order : List (Fin n)} {a : α}
    (h : DrainInvariant kind adjacent mask start (fun x y => x = p ∧ y ∈ order) s)
    (hmask : AllOrdered mask) (ha : Pixel.Ordered a) (hp : levels kind s.marker p = kind.level a)
    (hadj : ∀ q ∈ order, adjacent p q) :
    DrainInvariant kind adjacent mask start (fun x y => x = p ∧ y ∈ [])
      (order.foldl (Morphology.offer kind mask a) s) := by
  induction order generalizing s with
  | nil => exact h
  | cons q rest ih =>
      obtain ⟨hnext, hlevel⟩ := h.offer hmask ha hp (hadj q (by simp))
      apply ih hnext hlevel
      intro r hr
      exact hadj r (by simp [hr])

/-- Between two steps no offer is pending. -/
def nothingPending (_ _ : Fin n) : Prop := False

theorem DrainInvariant.step {s t : Drained α n}
    (h : DrainInvariant kind adjacent mask start nothingPending s) (hmask : AllOrdered mask)
    (hneighbors : ∀ p q, q ∈ neighbors p ↔ adjacent p q)
    (hstep : AnyOrderStep kind mask neighbors s t) :
    DrainInvariant kind adjacent mask start nothingPending t := by
  cases hstep with
  | @handle p queue order hwaits hremoved horder =>
      have hmem (q : Fin n) : q ∈ order ↔ adjacent p q := by
        rw [horder.mem_iff, hneighbors]
      have hpopped : DrainInvariant kind adjacent mask start (fun x y => x = p ∧ y ∈ order)
          { s with queue, pops := s.pops + 1 } := by
        refine ⟨h.toSweepInvariant, h.consistent.removed hremoved, ?_⟩
        intro x y hxy hlow hopen
        rcases h.covered x y hxy hlow hopen with hwaits | hfalse
        · by_cases hx : x = p
          · exact .inr ⟨hx, (hmem y).mpr (hx ▸ hxy)⟩
          · apply Or.inl
            rw [hremoved.toList_eq, h.consistent.nodup.mem_erase_iff]
            exact ⟨hx, hwaits⟩
        · exact hfalse.elim
      have hdone := hpopped.offers hmask (h.ordered p) rfl fun q hq => (hmem q).mp hq
      refine ⟨hdone.toSweepInvariant, hdone.consistent, ?_⟩
      intro x y hxy hlow hopen
      rcases hdone.covered x y hxy hlow hopen with hwaits | ⟨_, hnil⟩
      · exact .inl hwaits
      · cases hnil

theorem DrainInvariant.run {s t : Drained α n} {m : Nat}
    (h : DrainInvariant kind adjacent mask start nothingPending s) (hmask : AllOrdered mask)
    (hneighbors : ∀ p q, q ∈ neighbors p ↔ adjacent p q)
    (hrun : AnyOrderRun kind mask neighbors s m t) :
    DrainInvariant kind adjacent mask start nothingPending t := by
  induction hrun with
  | refl => exact h
  | tail _ hstep ih => exact ih.step hmask hneighbors hstep

theorem DrainInvariant.le_level_iff {s : Drained α n}
    (h : DrainInvariant kind adjacent mask start nothingPending s)
    (hempty : s.queue.toList = []) {t : Int} {p : Fin n} :
    t ≤ levels kind s.marker p ↔
      Reached adjacent (levels kind mask) (levels kind start) t p := by
  have hstable : Stable adjacent (levels kind mask) (levels kind s.marker) := by
    intro x y hxy
    by_contra hraise
    rw [not_le, lt_min_iff] at hraise
    rcases h.covered x y hxy hraise.1 hraise.2 with hwaits | hfalse
    · rw [hempty] at hwaits
      cases hwaits
    · exact hfalse
  rw [hstable.le_iff_reached fun x => h.below x (Set.mem_univ x), h.reach]

end Morphology
