import Morphology.Proofs.Level
import Morphology.Propagation

/-! Propagation sees values only through comparisons: from markers and masks whose values compare
alike the passes take the same course. -/

namespace Morphology

variable {α β : Type} [Pixel α] [Pixel β] {kind other : Kind} {R : α → β → Prop} {n : Nat}

/-- Related values compare alike, each under its own kind. -/
structure ComparesAlike (kind other : Kind) (R : α → β → Prop) : Prop where
  precedes : ∀ {a c b d}, R a b → R c d → kind.precedes a c = other.precedes b d
  eq : ∀ {a c b d}, R a b → R c d → Pixel.eq a c = Pixel.eq b d

def Pointwise (R : α → β → Prop) (v : Vector α n) (w : Vector β n) : Prop :=
  ∀ i, R (v.get i) (w.get i)

omit [Pixel α] [Pixel β] in
theorem Pointwise.set {v : Vector α n} {w : Vector β n} {a : α} {b : β} (h : Pointwise R v w)
    (hab : R a b) (i : Fin n) : Pointwise R (v.set i a i.isLt) (w.set i b i.isLt) := by
  intro j
  rw [get_set, get_set]
  split
  · exact hab
  · exact h j

namespace ComparesAlike

variable {a c : α} {b d : β}

theorem combine (h : ComparesAlike kind other R) (hab : R a b) (hcd : R c d) :
    R (kind.combine a c) (other.combine b d) := by
  rw [Kind.combine_eq, Kind.combine_eq, h.precedes hab hcd]
  split
  · exact hcd
  · exact hab

theorem clamp (h : ComparesAlike kind other R) (hab : R a b) (hcd : R c d) :
    R (kind.clamp a c) (other.clamp b d) := by
  rw [Kind.clamp_eq, Kind.clamp_eq, h.precedes hcd hab]
  split
  · exact hcd
  · exact hab

variable {mask marker : Vector α n} {mask' marker' : Vector β n}

theorem foldl_combine (h : ComparesAlike kind other R) (hmarker : Pointwise R marker marker')
    (passed : List (Fin n)) (hab : R a b) :
    R (passed.foldl (fun value q => kind.combine value (marker.get q)) a)
      (passed.foldl (fun value q => other.combine value (marker'.get q)) b) := by
  induction passed generalizing a b with
  | nil => exact hab
  | cons q passed ih =>
      apply ih
      exact h.combine hab (hmarker q)

theorem settled (h : ComparesAlike kind other R) (hmask : Pointwise R mask mask')
    (hmarker : Pointwise R marker marker') (visit : Visit n) :
    R (settled kind mask marker visit) (settled other mask' marker' visit) :=
  h.clamp (h.foldl_combine hmarker visit.passed (hmarker visit.index)) (hmask visit.index)

theorem improves_eq (h : ComparesAlike kind other R) (hmask : Pointwise R mask mask')
    (hmarker : Pointwise R marker marker') (hab : R a b) :
    improves kind mask marker a = improves other mask' marker' b := by
  funext q
  rw [improves, improves, h.precedes (hmarker q) hab, h.precedes (hmarker q) (hmask q)]

end ComparesAlike

structure SweptAlike (R : α → β → Prop) (s : Swept α n) (t : Swept β n) : Prop where
  marker : Pointwise R s.marker t.marker
  updates_eq : s.updates = t.updates

structure SeededAlike (R : α → β → Prop) (s : Seeded α n) (t : Seeded β n) : Prop
    extends SweptAlike R s.toSwept t.toSwept where
  queue_eq : s.queue = t.queue

structure DrainedAlike (R : α → β → Prop) (s : Drained α n) (t : Drained β n) : Prop
    extends SeededAlike R s.toSeeded t.toSeeded where
  pops_eq : s.pops = t.pops

variable {mask marker : Vector α n} {mask' marker' : Vector β n}

theorem SweptAlike.write {s : Swept α n} {t : Swept β n} {a : α} {b : β} (hs : SweptAlike R s t)
    (h : ComparesAlike kind other R) (hab : R a b) (i : Fin n) :
    SweptAlike R (s.write i a) (t.write i b) := by
  rw [Swept.write, Swept.write, h.eq hab (hs.marker i), hs.updates_eq]
  split
  · exact hs
  · exact ⟨hs.marker.set hab i, rfl⟩

theorem SweptAlike.steps {s : Swept α n} {t : Swept β n} (hs : SweptAlike R s t)
    (h : ComparesAlike kind other R) (hmask : Pointwise R mask mask') (visits : List (Visit n)) :
    SweptAlike R (visits.foldl (sweepStep kind mask) s)
      (visits.foldl (sweepStep other mask') t) := by
  induction visits generalizing s t with
  | nil => exact hs
  | cons visit visits ih =>
      apply ih
      exact hs.write h (h.settled hmask hs.marker visit) visit.index

theorem SeededAlike.step {s : Seeded α n} {t : Seeded β n} (hs : SeededAlike R s t)
    (h : ComparesAlike kind other R) (hmask : Pointwise R mask mask') (visit : Visit n) :
    SeededAlike R (seedStep kind mask s visit) (seedStep other mask' t visit) := by
  have hvalue := h.settled hmask hs.marker visit
  have hwrite := hs.toSweptAlike.write h hvalue visit.index
  simp only [seedStep, h.improves_eq hmask hwrite.marker hvalue, hs.queue_eq]
  split
  · exact ⟨hwrite, rfl⟩
  · exact ⟨hwrite, rfl⟩

theorem SeededAlike.steps {s : Seeded α n} {t : Seeded β n} (hs : SeededAlike R s t)
    (h : ComparesAlike kind other R) (hmask : Pointwise R mask mask') (visits : List (Visit n)) :
    SeededAlike R (visits.foldl (seedStep kind mask) s)
      (visits.foldl (seedStep other mask') t) := by
  induction visits generalizing s t with
  | nil => exact hs
  | cons visit visits ih =>
      apply ih
      exact hs.step h hmask visit

theorem DrainedAlike.offer {s : Drained α n} {t : Drained β n} {a : α} {b : β}
    (hs : DrainedAlike R s t) (h : ComparesAlike kind other R) (hmask : Pointwise R mask mask')
    (hab : R a b) (q : Fin n) :
    DrainedAlike R (offer kind mask a s q) (offer other mask' b t q) := by
  rw [Morphology.offer, Morphology.offer, h.precedes (hs.marker q) hab,
    h.eq (hs.marker q) (hmask q), hs.updates_eq, hs.queue_eq, hs.pops_eq]
  split
  · exact ⟨⟨⟨hs.marker.set (h.clamp hab (hmask q)) q, rfl⟩, rfl⟩, rfl⟩
  · exact hs

theorem DrainedAlike.offers {s : Drained α n} {t : Drained β n} {a : α} {b : β}
    (hs : DrainedAlike R s t) (h : ComparesAlike kind other R) (hmask : Pointwise R mask mask')
    (hab : R a b) (order : List (Fin n)) :
    DrainedAlike R (order.foldl (Morphology.offer kind mask a) s)
      (order.foldl (Morphology.offer other mask' b) t) := by
  induction order generalizing s t with
  | nil => exact hs
  | cons q rest ih =>
      apply ih
      exact hs.offer h hmask hab q

theorem DrainedAlike.step {s : Drained α n} {t : Drained β n} (hs : DrainedAlike R s t)
    (h : ComparesAlike kind other R) (hmask : Pointwise R mask mask')
    (neighbors : Fin n → List (Fin n)) :
    Option.Rel (DrainedAlike R) (drainStep? kind mask neighbors s)
      (drainStep? other mask' neighbors t) := by
  rw [drainStep?, drainStep?, hs.queue_eq]
  cases t.queue.pop? with
  | none => exact .none
  | some popped =>
      obtain ⟨p, queue⟩ := popped
      have hpopped : DrainedAlike R { s with queue, pops := s.pops + 1 }
          { t with queue, pops := t.pops + 1 } :=
        ⟨⟨⟨hs.marker, hs.updates_eq⟩, rfl⟩, congrArg (· + 1) hs.pops_eq⟩
      exact .some (hpopped.offers h hmask (hs.marker p) (neighbors p))

theorem DrainedAlike.steps {s : Drained α n} {t : Drained β n} (hs : DrainedAlike R s t)
    (h : ComparesAlike kind other R) (hmask : Pointwise R mask mask')
    (neighbors : Fin n → List (Fin n)) (fuel : Nat) :
    DrainedAlike R (drainSteps kind mask neighbors fuel s)
      (drainSteps other mask' neighbors fuel t) := by
  induction fuel generalizing s t with
  | zero => exact hs
  | succ fuel ih =>
      have hstep := hs.step h hmask neighbors
      rw [drainSteps, drainSteps]
      generalize drainStep? kind mask neighbors s = next at hstep
      generalize drainStep? other mask' neighbors t = next' at hstep
      cases hstep with
      | none => exact hs
      | some hnext => exact ih hnext

/-! ## All passes -/

/-- Markers that compare alike after the forward sweep compare alike at the end, and the later
passes count the same. -/
theorem propagate_alike (h : ComparesAlike kind other R) (hmask : Pointwise R mask mask')
    {schedule : Schedule n}
    (hswept : Pointwise R (forwardSweep kind mask schedule.forward marker).marker
      (forwardSweep other mask' schedule.forward marker').marker) :
    Pointwise R (propagate kind schedule mask marker).1
        (propagate other schedule mask' marker').1 ∧
      (propagate other schedule mask' marker').2 =
        { (propagate kind schedule mask marker).2 with
          forwardUpdates := (propagate other schedule mask' marker').2.forwardUpdates } := by
  have hstart : SeededAlike R ⟨⟨_, 0⟩, Queue.empty n⟩ ⟨⟨_, 0⟩, Queue.empty n⟩ :=
    ⟨⟨hswept, rfl⟩, rfl⟩
  have hseeded := hstart.steps h hmask schedule.backward
  have hready (queue : Queue n) : DrainedAlike R ⟨⟨⟨_, 0⟩, queue⟩, 0⟩ ⟨⟨⟨_, 0⟩, queue⟩, 0⟩ :=
    ⟨⟨⟨hseeded.marker, rfl⟩, rfl⟩, rfl⟩
  have hdrained (queue : Queue n) :=
    (hready queue).steps h hmask schedule.neighbors (drainBound queue)
  simp only [propagate, backwardSweep, drain, hseeded.queue_eq, hseeded.updates_eq,
    (hdrained _).updates_eq, (hdrained _).pops_eq]
  exact ⟨(hdrained _).marker, trivial⟩

/-- Markers that compare alike from the start give the same counts in all passes. -/
theorem propagate_alike_stats (h : ComparesAlike kind other R) (hmask : Pointwise R mask mask')
    (hmarker : Pointwise R marker marker') (schedule : Schedule n) :
    Pointwise R (propagate kind schedule mask marker).1
        (propagate other schedule mask' marker').1 ∧
      (propagate other schedule mask' marker').2 = (propagate kind schedule mask marker).2 := by
  have hstart : SweptAlike R ⟨marker, 0⟩ ⟨marker', 0⟩ := ⟨hmarker, rfl⟩
  have hswept := hstart.steps h hmask schedule.forward
  obtain ⟨hvalues, hlater⟩ := propagate_alike h hmask hswept.marker
  have hforward : (propagate other schedule mask' marker').2.forwardUpdates =
      (propagate kind schedule mask marker).2.forwardUpdates := hswept.updates_eq.symm
  rw [hforward] at hlater
  exact ⟨hvalues, hlater⟩

end Morphology
