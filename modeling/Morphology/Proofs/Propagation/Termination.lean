import Mathlib.Algebra.Order.BigOperators.Group.Finset
import Mathlib.Data.Fintype.BigOperators
import Morphology.Proofs.Propagation.Drain

/-! Every order of draining stops. An element changes at most once for each value above its own up
to its mask, or once if it starts on the wrong side; an index is popped at most once for each time
that it was queued. -/

namespace Morphology

variable {α : Type} [Pixel α] {n : Nat} {kind : Kind} {neighbors : Fin n → List (Fin n)}
  {mask : Vector α n} {values : Finset Int}

/-- How often an element can still change if only the given values occur. -/
def room (values : Finset Int) (mask marker : Int) : Nat :=
  if mask < marker then 1 else (values.filter fun v => marker < v ∧ v ≤ mask).card

theorem room_le {mask marker : Int} (hmask : mask ∈ values) (hmarker : marker ∈ values) :
    room values mask marker ≤ values.card - 1 := by
  rw [room]
  split
  · next hwrong =>
      have hpair : ({mask, marker} : Finset Int) ⊆ values := by
        intro v hv
        rcases Finset.mem_insert.mp hv with rfl | hv
        · exact hmask
        · rw [Finset.mem_singleton.mp hv]
          exact hmarker
      have hcard := Finset.card_le_card hpair
      rw [Finset.card_pair hwrong.ne] at hcard
      omega
  · have hsub : values.filter (fun v => marker < v ∧ v ≤ mask) ⊆ values.erase marker := by
      intro v hv
      obtain ⟨hmem, hlt, _⟩ := Finset.mem_filter.mp hv
      exact Finset.mem_erase.mpr ⟨hlt.ne', hmem⟩
    have hcard := Finset.card_le_card hsub
    rwa [Finset.card_erase_of_mem hmarker] at hcard

theorem room_offer_lt {mask marker value : Int} (hmask : mask ∈ values) (hvalue : value ∈ values)
    (hbehind : marker < value) (hopen : marker ≠ mask) :
    room values mask (min value mask) < room values mask marker := by
  rw [room, if_neg (not_lt.mpr (min_le_right value mask)), room]
  split
  · next hwrong =>
      have hnone : values.filter (fun v => min value mask < v ∧ v ≤ mask) = ∅ := by
        rw [min_eq_right (hwrong.trans hbehind).le]
        exact Finset.filter_eq_empty_iff.mpr fun v _ hv => absurd hv.1 (not_lt.mpr hv.2)
      rw [hnone, Finset.card_empty]
      exact Nat.one_pos
  · next hright =>
      have hrise : marker < min value mask :=
        lt_min hbehind (lt_of_le_of_ne (not_lt.mp hright) hopen)
      have hmem : min value mask ∈ values := by
        rcases min_choice value mask with h | h <;> rw [h] <;> assumption
      apply Finset.card_lt_card
      rw [Finset.ssubset_iff_of_subset]
      · refine ⟨min value mask, Finset.mem_filter.mpr ⟨hmem, hrise, min_le_right _ _⟩, ?_⟩
        intro h
        exact absurd (Finset.mem_filter.mp h).2.1 (lt_irrefl _)
      · intro v hv
        obtain ⟨hv, hlow, hhigh⟩ := Finset.mem_filter.mp hv
        exact Finset.mem_filter.mpr ⟨hv, hrise.trans hlow, hhigh⟩

def slack (values : Finset Int) (mask marker : Fin n → Int) : Nat :=
  ∑ p, room values (mask p) (marker p)

theorem slack_le {mask marker : Fin n → Int} (hmask : ∀ p, mask p ∈ values)
    (hmarker : ∀ p, marker p ∈ values) : slack values mask marker ≤ n * (values.card - 1) := by
  have h := Finset.sum_le_card_nsmul Finset.univ (fun p => room values (mask p) (marker p))
    (values.card - 1) fun p _ => room_le (hmask p) (hmarker p)
  simpa [slack] using h

theorem slack_update_lt {mask marker : Fin n → Int} {q : Fin n} {value : Int}
    (h : room values (mask q) value < room values (mask q) (marker q)) :
    slack values mask (Function.update marker q value) < slack values mask marker := by
  apply Finset.sum_lt_sum
  · intro p _
    by_cases hp : p = q
    · rw [hp, Function.update_self]
      exact h.le
    · rw [Function.update_of_ne hp]
  · exact ⟨q, Finset.mem_univ q, by rwa [Function.update_self]⟩

/-! ## The accounts of a drain -/

/-- Only the given values occur, every update is paid from the room at the start, and every pop from
the queue at the start or from an update. -/
structure Accounts (kind : Kind) (mask : Vector α n) (values : Finset Int) (credit waiting : Nat)
    (s : Drained α n) : Prop where
  ordered : AllOrdered s.marker
  occurs : ∀ p, levels kind s.marker p ∈ values
  updates_le : s.updates + slack values (levels kind mask) (levels kind s.marker) ≤ credit
  pops_le : s.pops + s.queue.size ≤ waiting + s.updates

theorem accounts_start (kind : Kind) (mask : Vector α n) {marker : Vector α n} (queue : Queue n)
    (hmarker : AllOrdered marker) (hoccurs : ∀ p, levels kind marker p ∈ values) :
    Accounts kind mask values (slack values (levels kind mask) (levels kind marker)) queue.size
      ⟨⟨⟨marker, 0⟩, queue⟩, 0⟩ :=
  ⟨hmarker, hoccurs, by simp, by simp⟩

theorem Accounts.offer {credit waiting : Nat} {s : Drained α n} {a : α}
    (h : Accounts kind mask values credit waiting s) (hmask : AllOrdered mask)
    (hvalues : ∀ p, levels kind mask p ∈ values) (ha : Pixel.Ordered a)
    (hlevel : kind.level a ∈ values) (q : Fin n) :
    Accounts kind mask values credit waiting (Morphology.offer kind mask a s q) := by
  rw [Morphology.offer]
  split
  · next htaken =>
      obtain ⟨hbehind, hopen⟩ := (offer_iff hmask h.ordered ha q).mp htaken
      have hlevels := levels_offer kind hmask s.marker ha q
      have hslack := slack_update_lt (room_offer_lt (hvalues q) hlevel hbehind hopen)
      have hupdates := h.updates_le
      have hpops := h.pops_le
      have hsize := Queue.size_push_le s.queue q
      refine ⟨allOrdered_set h.ordered (Kind.ordered_clamp ha) q, ?_, ?_, ?_⟩
      · intro p
        rw [hlevels]
        by_cases hp : p = q
        · rw [hp, Function.update_self]
          rcases min_choice (kind.level a) (levels kind mask q) with hmin | hmin <;> rw [hmin]
          · exact hlevel
          · exact hvalues q
        · rw [Function.update_of_ne hp]
          exact h.occurs p
      · rw [hlevels]
        change s.updates + 1 + _ ≤ credit
        omega
      · change s.pops + (s.queue.push q).2.size ≤ waiting + (s.updates + 1)
        omega
  · exact h

theorem Accounts.offers {credit waiting : Nat} {s : Drained α n} {a : α}
    (h : Accounts kind mask values credit waiting s) (hmask : AllOrdered mask)
    (hvalues : ∀ p, levels kind mask p ∈ values) (ha : Pixel.Ordered a)
    (hlevel : kind.level a ∈ values) (order : List (Fin n)) :
    Accounts kind mask values credit waiting (order.foldl (Morphology.offer kind mask a) s) := by
  induction order generalizing s with
  | nil => exact h
  | cons q rest ih =>
      apply ih
      exact h.offer hmask hvalues ha hlevel q

theorem pops_offers (order : List (Fin n)) (a : α) (s : Drained α n) :
    (order.foldl (offer kind mask a) s).pops = s.pops := by
  induction order generalizing s with
  | nil => rfl
  | cons q rest ih =>
      rw [List.foldl_cons, ih, offer]
      split <;> rfl

theorem Accounts.step {credit waiting : Nat} {s t : Drained α n}
    (h : Accounts kind mask values credit waiting s) (hmask : AllOrdered mask)
    (hvalues : ∀ p, levels kind mask p ∈ values)
    (hstep : AnyOrderStep kind mask neighbors s t) :
    Accounts kind mask values credit waiting t ∧ t.pops = s.pops + 1 := by
  cases hstep with
  | @handle p queue order hwaits hremoved _ =>
      have hsize := hremoved.size hwaits
      have hpops := h.pops_le
      have hpopped : Accounts kind mask values credit waiting
          { s with queue, pops := s.pops + 1 } := by
        refine ⟨h.ordered, h.occurs, h.updates_le, ?_⟩
        change s.pops + 1 + queue.size ≤ waiting + s.updates
        omega
      exact ⟨hpopped.offers hmask hvalues (h.ordered p) (h.occurs p) order, pops_offers _ _ _⟩

theorem Accounts.run {credit waiting m : Nat} {s t : Drained α n}
    (h : Accounts kind mask values credit waiting s) (hmask : AllOrdered mask)
    (hvalues : ∀ p, levels kind mask p ∈ values)
    (hrun : AnyOrderRun kind mask neighbors s m t) :
    Accounts kind mask values credit waiting t ∧ t.pops = s.pops + m := by
  induction hrun with
  | refl => exact ⟨h, rfl⟩
  | tail _ hstep ih =>
      obtain ⟨hmiddle, hcount⟩ := ih
      obtain ⟨hend, hone⟩ := hmiddle.step hmask hvalues hstep
      exact ⟨hend, by omega⟩

def occurring (kind : Kind) (mask marker : Vector α n) : Finset Int :=
  Finset.univ.image (levels kind mask) ∪ Finset.univ.image (levels kind marker)

theorem card_occurring_le (kind : Kind) (mask marker : Vector α n) :
    (occurring kind mask marker).card ≤ 2 * n := by
  have hmask := Finset.card_image_le (s := Finset.univ) (f := levels kind mask)
  have hmarker := Finset.card_image_le (s := Finset.univ) (f := levels kind marker)
  have hunion := Finset.card_union_le (Finset.univ.image (levels kind mask))
    (Finset.univ.image (levels kind marker))
  rw [Finset.card_univ, Fintype.card_fin] at hmask hmarker
  rw [occurring]
  omega

variable {marker : Vector α n}

theorem mask_mem_occurring (p : Fin n) : levels kind mask p ∈ occurring kind mask marker :=
  Finset.mem_union_left _ (Finset.mem_image_of_mem _ (Finset.mem_univ p))

theorem marker_mem_occurring (p : Fin n) : levels kind marker p ∈ occurring kind mask marker :=
  Finset.mem_union_right _ (Finset.mem_image_of_mem _ (Finset.mem_univ p))

theorem slack_occurring_le (kind : Kind) (mask marker : Vector α n) :
    slack (occurring kind mask marker) (levels kind mask) (levels kind marker) ≤ 2 * n * n := by
  have hcard := card_occurring_le kind mask marker
  calc slack (occurring kind mask marker) (levels kind mask) (levels kind marker)
      ≤ n * ((occurring kind mask marker).card - 1) :=
        slack_le mask_mem_occurring marker_mem_occurring
    _ ≤ n * (2 * n) := Nat.mul_le_mul_left n (by omega)
    _ = 2 * n * n := Nat.mul_comm n (2 * n)

/-- Every run keeps the accounts, with the room of the marker that it starts from. -/
theorem accounts_run {queue : Queue n} {m : Nat} {t : Drained α n} (hmask : AllOrdered mask)
    (hmarker : AllOrdered marker)
    (hrun : AnyOrderRun kind mask neighbors ⟨⟨⟨marker, 0⟩, queue⟩, 0⟩ m t) :
    Accounts kind mask (occurring kind mask marker)
        (slack (occurring kind mask marker) (levels kind mask) (levels kind marker)) queue.size t ∧
      t.pops = m := by
  have hoccurs : ∀ p, levels kind marker p ∈ occurring kind mask marker := marker_mem_occurring
  have hstart := accounts_start kind mask queue hmarker hoccurs
  obtain ⟨hend, hpops⟩ := hstart.run hmask mask_mem_occurring hrun
  exact ⟨hend, hpops.trans (Nat.zero_add m)⟩

/-- In any order, the steps made and the indices that still wait are together no more than the
bound. -/
theorem length_run_le {queue : Queue n} {m : Nat} {t : Drained α n} (hmask : AllOrdered mask)
    (hmarker : AllOrdered marker)
    (hrun : AnyOrderRun kind mask neighbors ⟨⟨⟨marker, 0⟩, queue⟩, 0⟩ m t) :
    m + t.queue.size ≤ drainBound queue := by
  obtain ⟨h, hpops⟩ := accounts_run hmask hmarker hrun
  have hslack := slack_occurring_le kind mask marker
  have hupdates := h.updates_le
  have hcount := h.pops_le
  rw [drainBound]
  omega

/-- A drain ends at an empty queue and not for want of fuel. -/
theorem drain_queue_empty {queue : Queue n} (hmask : AllOrdered mask)
    (hmarker : AllOrdered marker) :
    (drain kind mask neighbors marker queue).queue.toList = [] := by
  obtain ⟨m, hrun, hempty | rfl⟩ :=
    drainSteps_run kind mask neighbors (drainBound queue) ⟨⟨⟨marker, 0⟩, queue⟩, 0⟩
  · exact hempty
  · have hlength := length_run_le hmask hmarker hrun
    rw [Queue.size_eq_length] at hlength
    exact List.eq_nil_of_length_eq_zero (by rw [drain]; omega)

theorem drain_run (kind : Kind) (mask marker : Vector α n) (neighbors : Fin n → List (Fin n))
    (queue : Queue n) :
    ∃ m, AnyOrderRun kind mask neighbors ⟨⟨⟨marker, 0⟩, queue⟩, 0⟩ m
      (drain kind mask neighbors marker queue) := by
  obtain ⟨m, hrun, _⟩ :=
    drainSteps_run kind mask neighbors (drainBound queue) ⟨⟨⟨marker, 0⟩, queue⟩, 0⟩
  exact ⟨m, hrun⟩

end Morphology
