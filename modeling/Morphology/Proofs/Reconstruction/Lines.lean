import Morphology.Proofs.Propagation.Quiet
import Morphology.Proofs.Reconstruction.Result

/-! On a line two sweeps suffice. An element has no more than one later neighbor, so the backward
sweep brings a value to it from that neighbor alone and leaves the pair as settled as the forward
sweep has left it: nothing is queued. -/

namespace Morphology

namespace Shape

/-- At most one axis has more than one place. -/
def IsLine (s : Shape) : Prop := s.dims.countP (1 < ·) ≤ 1

instance (s : Shape) : Decidable s.IsLine := inferInstanceAs (Decidable (_ ≤ _))

theorem eq_of_inside_unit {a b dims : List Nat} (ha : inside a dims = true)
    (hb : inside b dims = true) (hunit : dims.countP (1 < ·) = 0) : a = b := by
  induction ha using inside_induction generalizing b with
  | nil => exact (eq_nil_of_inside hb).symm
  | cons x d xs ds hx hxs ih =>
      obtain ⟨y, ys, rfl, hy, hys⟩ := exists_cons_of_inside hb
      rw [List.countP_cons, Nat.add_eq_zero_iff] at hunit
      have hd : ¬ 1 < d := by simpa using hunit.2
      rw [ih hys hunit.1, show x = y by omega]

theorem eq_of_later_step {a b c dims : List Nat} (ha : inside a dims = true)
    (hb : inside b dims = true) (hc : inside c dims = true)
    (hline : dims.countP (1 < ·) ≤ 1) (hab : a < b) (hac : a < c)
    (hstepb : ∀ d ∈ displacement a b, d.natAbs ≤ 1)
    (hstepc : ∀ d ∈ displacement a c, d.natAbs ≤ 1) : b = c := by
  induction ha using inside_induction generalizing b c with
  | nil => rw [eq_nil_of_inside hb, eq_nil_of_inside hc]
  | cons x d xs ds hx hxs ih =>
      obtain ⟨y, ys, rfl, hy, hys⟩ := exists_cons_of_inside hb
      obtain ⟨z, zs, rfl, hz, hzs⟩ := exists_cons_of_inside hc
      rw [displacement_cons, List.forall_mem_cons] at hstepb hstepc
      rw [List.cons_lt_cons_iff] at hab hac
      rw [List.countP_cons] at hline
      by_cases hd : 1 < d
      · -- The long axis decides, since the others hold one position.
        have hunit : ds.countP (1 < ·) = 0 := by
          rw [if_pos (decide_eq_true hd)] at hline
          omega
        obtain rfl := eq_of_inside_unit hxs hys hunit
        obtain rfl := eq_of_inside_unit hxs hzs hunit
        have hxy : x < y := hab.resolve_right fun h => List.lt_irrefl xs h.2
        have hxz : x < z := hac.resolve_right fun h => List.lt_irrefl xs h.2
        rw [show y = z by omega]
      · obtain rfl : x = y := by omega
        obtain rfl : x = z := by omega
        have hrest : ds.countP (1 < ·) ≤ 1 := by
          rwa [if_neg (by simpa using hd)] at hline
        rw [ih hys hzs hrest (hab.resolve_left (lt_irrefl x)).2
          (hac.resolve_left (lt_irrefl x)).2 hstepb.2 hstepc.2]

theorem IsLine.eq_of_later {s : Shape} (h : s.IsLine) {connectivity : Connectivity}
    {p q r : Fin s.len} (hpq : s.Adjacent connectivity p q) (hpr : s.Adjacent connectivity p r)
    (hq : p < q) (hr : p < r) : q = r := by
  apply eq_of_coordsOf_eq
  exact eq_of_later_step (contains_coordsOf p.isLt) (contains_coordsOf q.isLt)
    (contains_coordsOf r.isLt) h (coordsOf_lt_iff.mpr hq) (coordsOf_lt_iff.mpr hr) hpq.1 hpr.1

end Shape

variable {α : Type} [Pixel α] {n : Nat} {kind : Kind} {adjacent : Fin n → Fin n → Prop}
  {schedule : Schedule n} {mask marker : Vector α n} {seen : Set (Fin n)}

/-- No element of a set lies behind both its mask and an earlier neighbor in the set. -/
def SettledOn (kind : Kind) (adjacent : Fin n → Fin n → Prop) (mask : Vector α n)
    (S : Set (Fin n)) (marker : Vector α n) : Prop :=
  ∀ p ∈ S, ∀ q ∈ S, adjacent p q → p < q →
    min (levels kind marker p) (levels kind mask q) ≤ levels kind marker q

theorem SettledOn.forwardStep {s : Swept α n} {visit : Visit n}
    (h : SettledOn kind adjacent mask seen s.marker) (hmask : AllOrdered mask)
    (hmarker : AllOrdered s.marker) (hsymm : ∀ p q, adjacent p q → adjacent q p)
    (hbefore : ∀ p ∈ seen, p < visit.index)
    (hpassed : ∀ q, q ∈ visit.passed ↔ adjacent visit.index q ∧ q ∈ seen) :
    SettledOn kind adjacent mask (insert visit.index seen)
      (sweepStep kind mask s visit).marker := by
  have hvalue := ordered_settled kind mask (hmarker visit.index)
  have hlevels := levels_write kind hmarker hvalue visit.index
  have hold (p) (hp : p ∈ seen) :
      levels kind (sweepStep kind mask s visit).marker p = levels kind s.marker p := by
    rw [sweepStep, hlevels, Function.update_of_ne (hbefore p hp).ne]
  intro p hp q hq hadj hlt
  rcases Set.mem_insert_iff.mp hp with rfl | hp
  · rcases Set.mem_insert_iff.mp hq with rfl | hq
    · exact absurd hlt (lt_irrefl _)
    · exact absurd hlt (hbefore q hq).asymm
  · rcases Set.mem_insert_iff.mp hq with rfl | hq
    · rw [hold p hp, sweepStep, hlevels, Function.update_self]
      refine (le_level_settled_iff kind hmask hmarker visit).mpr ⟨.inr ⟨p, ?_, ?_⟩, ?_⟩
      · exact (hpassed p).mpr ⟨hsymm _ _ hadj, hp⟩
      · exact min_le_left _ _
      · exact min_le_right _ _
    · rw [hold p hp, hold q hq]
      exact h p hp q hq hadj hlt

theorem settledOn_forwardSweep (hschedule : schedule.Follows adjacent)
    (hsorted : (schedule.forward.map Visit.index).Pairwise (· < ·)) (kind : Kind)
    (hmask : AllOrdered mask) (hmarker : AllOrdered marker) :
    SettledOn kind adjacent mask Set.univ
      (forwardSweep kind mask schedule.forward marker).marker := by
  let P (seen : Set (Fin n)) (s : Swept α n) : Prop :=
    AllOrdered s.marker ∧ SettledOn kind adjacent mask seen s.marker
  have hstart : P ∅ ⟨marker, 0⟩ := ⟨hmarker, fun p hp => absurd hp (Set.notMem_empty p)⟩
  have hend := hschedule.forward.run_of_pairwise hsorted (by simp)
    (fun p => .inr (hschedule.mem_forward p)) P
    (fun seen s visit hbefore hpassed h =>
      ⟨ordered_write h.1 (ordered_settled kind mask (h.1 visit.index)) visit.index,
        h.2.forwardStep hmask h.1 hschedule.symm hbefore hpassed⟩) hstart
  exact hend.2

/-! ## The backward sweep over settled pairs -/

def OneLater (adjacent : Fin n → Fin n → Prop) : Prop :=
  ∀ p q r, adjacent p q → adjacent p r → p < q → p < r → q = r

/-- A later element only rises toward its mask, and an earlier one rises no higher than the one
neighbor that it takes a value from. -/
theorem SettledOn.backwardStep {s : Swept α n} {visit : Visit n}
    (h : SettledOn kind adjacent mask Set.univ s.marker) (hone : OneLater adjacent)
    (hmask : AllOrdered mask) (hmarker : AllOrdered s.marker)
    (hbelow : ∀ p, levels kind s.marker p ≤ levels kind mask p)
    (hpassed : ∀ q ∈ visit.passed, adjacent visit.index q ∧ visit.index < q) :
    SettledOn kind adjacent mask Set.univ (sweepStep kind mask s visit).marker := by
  have hvalue := ordered_settled kind mask (hmarker visit.index)
  have hlevel (t : Int) := le_level_settled_iff kind hmask hmarker visit (t := t)
  have hraised : levels kind s.marker visit.index ≤ kind.level (settled kind mask s.marker visit) :=
    (hlevel _).mpr ⟨.inl le_rfl, hbelow visit.index⟩
  intro p _ q _ hadj hlt
  have hpair := h p (Set.mem_univ p) q (Set.mem_univ q) hadj hlt
  rw [sweepStep, levels_write kind hmarker hvalue]
  by_cases hp : p = visit.index
  · subst hp
    rw [Function.update_self, Function.update_of_ne hlt.ne']
    obtain ⟨hown | ⟨r, hr, hneighbor⟩, _⟩ := (hlevel _).mp le_rfl
    · exact (min_le_min_right _ hown).trans hpair
    · obtain ⟨hadjr, hltr⟩ := hpassed r hr
      rw [hone _ q r hadj hadjr hlt hltr]
      exact (min_le_left _ _).trans hneighbor
  · rw [Function.update_of_ne hp]
    by_cases hq : q = visit.index
    · subst hq
      rw [Function.update_self]
      exact hpair.trans hraised
    · rwa [Function.update_of_ne hq]

theorem queue_seedStep_of_settledOn {s : Seeded α n} {visit : Visit n}
    (h : SettledOn kind adjacent mask Set.univ (sweepStep kind mask s.toSwept visit).marker)
    (hmask : AllOrdered mask) (hmarker : AllOrdered s.marker)
    (hpassed : ∀ q ∈ visit.passed, adjacent visit.index q ∧ visit.index < q) :
    (seedStep kind mask s visit).queue = s.queue := by
  have hvalue := ordered_settled kind mask (hmarker visit.index)
  have hordered : AllOrdered (sweepStep kind mask s.toSwept visit).marker :=
    ordered_write hmarker hvalue visit.index
  have hself : levels kind (sweepStep kind mask s.toSwept visit).marker visit.index =
      kind.level (settled kind mask s.marker visit) := by
    rw [sweepStep, levels_write kind hmarker hvalue, Function.update_self]
  have hnone : visit.passed.any (improves kind mask (sweepStep kind mask s.toSwept visit).marker
      (settled kind mask s.marker visit)) = false := by
    rw [List.any_eq_false]
    intro q hq himproves
    obtain ⟨hbehind, hroom⟩ := (improves_iff hmask hordered hvalue q).mp himproves
    obtain ⟨hadj, hlt⟩ := hpassed q hq
    have hpair := h visit.index (Set.mem_univ _) q (Set.mem_univ q) hadj hlt
    rw [hself] at hpair
    exact absurd (lt_min hbehind hroom) (not_lt.mpr hpair)
  rw [sweepStep] at hnone
  rw [seedStep, hnone]
  rfl

theorem queue_backwardSweep_of_settledOn (h : SettledOn kind adjacent mask Set.univ marker)
    (hone : OneLater adjacent) (hschedule : schedule.Follows adjacent)
    (hsorted : (schedule.backward.map Visit.index).Pairwise (· > ·)) (hmask : AllOrdered mask)
    (hmarker : AllOrdered marker) (hbelow : ∀ p, levels kind marker p ≤ levels kind mask p)
    (queue : Queue n) : (backwardSweep kind mask schedule.backward marker queue).queue = queue := by
  let P (s : Seeded α n) : Prop :=
    SweepInvariant kind adjacent mask marker Set.univ s.marker ∧
      SettledOn kind adjacent mask Set.univ s.marker ∧ s.queue = queue
  have hstart : P ⟨⟨marker, 0⟩, queue⟩ :=
    ⟨⟨hmarker, fun p _ => hbelow p, fun _ _ => Iff.rfl⟩, h, rfl⟩
  have hstep (seen : Set (Fin n)) (s : Seeded α n) (visit : Visit n)
      (hbefore : ∀ p ∈ seen, p > visit.index)
      (hpassed : ∀ q, q ∈ visit.passed ↔ adjacent visit.index q ∧ q ∈ seen) (hs : P s) :
      P (seedStep kind mask s visit) := by
    obtain ⟨hsweep, hsettled, hqueue⟩ := hs
    have hlater (q) (hq : q ∈ visit.passed) : adjacent visit.index q ∧ visit.index < q :=
      ⟨((hpassed q).mp hq).1, hbefore q ((hpassed q).mp hq).2⟩
    have hswept : (seedStep kind mask s visit).marker =
        (sweepStep kind mask s.toSwept visit).marker :=
      congrArg Swept.marker (toSwept_seedStep s visit)
    have hkept := hsweep.step hmask hschedule.symm fun q hq => ⟨(hlater q hq).1, Set.mem_univ q⟩
    have hnext := hsettled.backwardStep hone hmask hsweep.ordered
      (fun p => hsweep.below p (Set.mem_univ p)) hlater
    rw [Set.insert_eq_of_mem (Set.mem_univ _)] at hkept
    refine ⟨hswept ▸ hkept, hswept ▸ hnext, ?_⟩
    rw [queue_seedStep_of_settledOn hnext hmask hsweep.ordered hlater, hqueue]
  have hend := hschedule.backward.run_of_pairwise hsorted (by simp)
    (fun p => .inr (hschedule.mem_backward p)) (fun _ s => P s) hstep hstart
  exact hend.2.2

/-- If no element has two later neighbors, both sweeps end the propagation. -/
theorem propagate_eq_of_oneLater (hone : OneLater adjacent) (hschedule : schedule.Follows adjacent)
    (hforward : (schedule.forward.map Visit.index).Pairwise (· < ·))
    (hbackward : (schedule.backward.map Visit.index).Pairwise (· > ·)) (kind : Kind)
    (hmask : AllOrdered mask) (hmarker : AllOrdered marker) :
    let swept := forwardSweep kind mask schedule.forward marker
    let seeded := backwardSweep kind mask schedule.backward swept.marker (Queue.empty n)
    propagate kind schedule mask marker =
      (seeded.marker, ⟨swept.updates, seeded.updates, 0, 0, 0⟩) := by
  intro swept seeded
  have hsweep := sweepInvariant_forwardSweep hschedule kind hmask hmarker
  have hqueue : seeded.queue = Queue.empty n :=
    queue_backwardSweep_of_settledOn
      (settledOn_forwardSweep hschedule hforward kind hmask hmarker) hone hschedule hbackward hmask
      hsweep.ordered (fun p => hsweep.below p (Set.mem_univ p)) (Queue.empty n)
  have hdrain : drain kind mask schedule.neighbors seeded.marker seeded.queue =
      ⟨⟨⟨seeded.marker, 0⟩, seeded.queue⟩, 0⟩ :=
    drain_eq_of_empty (by rw [hqueue, Queue.toList_empty])
  simp only [swept, seeded] at hdrain hqueue ⊢
  rw [propagate, hdrain, hqueue]
  rfl

/-! ## Reconstruction on lines -/

/-- On a line, whatever marker and mask, reconstruction queues nothing: the marker as both sweeps
leave it is the result. -/
theorem reconstruct_line_twoSweeps (mask : Grid α) (marker : Vector α mask.shape.len)
    (kind : Kind) (connectivity : Connectivity) (hline : mask.shape.IsLine)
    (hmask : AllOrdered mask.data) (hmarker : AllOrdered marker) :
    let schedule := mask.shape.schedule connectivity
    let swept := forwardSweep kind mask.data schedule.forward marker
    let seeded := backwardSweep kind mask.data schedule.backward swept.marker (Queue.empty _)
    (mask.withData marker).reconstructInPlace mask ⟨kind, connectivity, false⟩ =
      (mask.withData seeded.marker,
        .ok { forwardUpdates := swept.updates, backwardUpdates := seeded.updates,
              seeds := 0, pops := 0, queueUpdates := 0 }) := by
  intro schedule swept seeded
  obtain ⟨hforward, hbackward⟩ := mask.shape.pairwise_schedule connectivity
  have hone : OneLater (mask.shape.Adjacent connectivity) := fun _ _ _ => hline.eq_of_later
  have hschedule := Shape.follows_schedule mask.len_lt connectivity
  rw [Grid.reconstructInPlace_unchecked,
    propagate_eq_of_oneLater hone hschedule hforward hbackward kind hmask hmarker]

namespace Grid

/-- A line with a ditch in the middle, along the second of three axes. -/
def trench : Grid (Sample .i16) where
  shape := ⟨[1, 6, 1], by decide, by decide, by decide⟩
  len_lt := by decide
  data := #v[4, 9, -3, 7, 8, 2].map (Sample.nearest .i16)

def trenchSeed : Vector (Sample .i16) trench.shape.len :=
  #v[20, -50, -50, -50, -50, 10].map (Sample.nearest .i16)

end Grid

theorem reconstruct_trench_twoSweeps :
    Grid.trench.shape.IsLine ∧ AllOrdered Grid.trench.data ∧ AllOrdered Grid.trenchSeed ∧
      let schedule := Grid.trench.shape.schedule .full
      let swept := forwardSweep .dilation Grid.trench.data schedule.forward Grid.trenchSeed
      let seeded :=
        backwardSweep .dilation Grid.trench.data schedule.backward swept.marker (Queue.empty _)
      (Grid.trench.withData Grid.trenchSeed).reconstructInPlace Grid.trench
          ⟨.dilation, .full, false⟩ =
        (Grid.trench.withData seeded.marker,
          .ok { forwardUpdates := swept.updates, backwardUpdates := seeded.updates,
                seeds := 0, pops := 0, queueUpdates := 0 }) :=
  ⟨by decide, allOrdered_sample _, allOrdered_sample _,
    reconstruct_line_twoSweeps Grid.trench Grid.trenchSeed .dilation .full (by decide)
      (allOrdered_sample _) (allOrdered_sample _)⟩

end Morphology
