import Morphology.Proofs.Reconstruction.Result
import Morphology.Proofs.Shape.Displaced
import Morphology.Proofs.Shape.Tours

/-! Reconstruction by raw indices, with a check of every access. The loops over a shape meet each
element at its own coordinates, and the offsets they follow lead inside, so no check fails. -/

namespace Morphology

def access? (n index : Nat) : Option (Fin n) :=
  if h : index < n then some ⟨index, h⟩ else none

theorem access?_val {n : Nat} (p : Fin n) : access? n p = some p :=
  dif_pos p.isLt

theorem mapM_eq_some_filterMap {β γ : Type} {f : β → Option γ} {l : List β}
    (h : ∀ b ∈ l, ∃ c, f b = some c) : l.mapM f = some (l.filterMap f) := by
  induction l with
  | nil => rfl
  | cons b l ih =>
      obtain ⟨c, hc⟩ := h b (by simp)
      rw [List.mapM_cons, ih fun b' hb' => h b' (by simp [hb']), hc, List.filterMap_cons_some hc]
      rfl

namespace Shape

variable {α : Type} [Pixel α] {s : Shape}

/-- What a pass accesses at a spot: the element of the index and those that the offsets it follows
lead to. -/
def visit? (s : Shape) (offsets : List Offset) (spot : Nat × List Nat) :
    Option (Visit s.len) := do
  let index ← access? s.len spot.1
  let targets := (offsets.filter (s.admits spot.2)).map fun offset => offset.target spot.1
  let passed ← targets.mapM (access? s.len)
  return ⟨index, passed⟩

theorem visit?_spot (hlen : s.len < Word.half) {offsets : List Offset}
    (hsteps : ∀ offset ∈ offsets, s.IsStep offset) (p : Fin s.len) :
    s.visit? offsets (s.spot p) = some ⟨p, s.neighborsOf offsets (s.site p)⟩ := by
  have htargets : ((offsets.filter (s.admits (s.coordsOf p))).map fun offset =>
      offset.target p).mapM (access? s.len) = some (s.neighborsOf offsets (s.site p)) := by
    rw [List.mapM_map, mapM_eq_some_filterMap]
    · rfl
    · intro offset hoffset
      obtain ⟨hmem, hadmits⟩ := List.mem_filter.mp hoffset
      have hstep := hsteps offset hmem
      have hinside := (admits_iff hlen hstep p).mp hadmits
      obtain ⟨q, _, _, htarget⟩ := exists_target_eq hlen hstep hinside
      exact ⟨q, by rw [Function.comp_apply, htarget, access?_val]⟩
  simp only [visit?, spot, access?_val, htargets]
  rfl

theorem mapM_visit?_spot (hlen : s.len < Word.half) {offsets : List Offset}
    (hsteps : ∀ offset ∈ offsets, s.IsStep offset) (indices : List (Fin s.len)) :
    (indices.map fun p : Fin s.len => s.spot p).mapM (s.visit? offsets) =
      some (indices.map fun p => ⟨p, s.neighborsOf offsets (s.site p)⟩) := by
  induction indices with
  | nil => rfl
  | cons p indices ih =>
      rw [List.map_cons, List.mapM_cons, visit?_spot hlen hsteps, ih]
      rfl

def sweep? {σ : Type} (s : Shape) (offsets : List Offset) (step : σ → Visit s.len → σ) (start : σ)
    (spots : List (Nat × List Nat)) : Option σ :=
  spots.foldlM (fun state spot => (s.visit? offsets spot).map (step state)) start

theorem sweep?_eq_some {σ : Type} {offsets : List Offset} {step : σ → Visit s.len → σ} {start : σ}
    {spots : List (Nat × List Nat)} {visits : List (Visit s.len)}
    (h : spots.mapM (s.visit? offsets) = some visits) :
    s.sweep? offsets step start spots = some (visits.foldl step start) := by
  induction spots generalizing visits start with
  | nil =>
      obtain rfl : visits = [] := by simpa using h.symm
      rfl
  | cons spot spots ih =>
      rw [List.mapM_cons] at h
      cases hvisit : s.visit? offsets spot with
      | none => simp [hvisit] at h
      | some visit =>
          cases hrest : spots.mapM (s.visit? offsets) with
          | none => simp [hvisit, hrest] at h
          | some rest =>
              obtain rfl : visit :: rest = visits := by simpa [hvisit, hrest] using h
              have hloop : s.sweep? offsets step (step start visit) spots =
                  some (rest.foldl step (step start visit)) := ih hrest
              rw [sweep?] at hloop ⊢
              rw [List.foldlM_cons, hvisit, Option.map_some, List.foldl_cons, ← hloop]
              rfl

/-- The drain, stopped by an access that fails. The coordinates are those of the popped index. -/
def drainSteps? (s : Shape) (offsets : List Offset) (kind : Kind) (mask : Vector α s.len) :
    Nat → Drained α s.len → Option (Drained α s.len)
  | 0, state => some state
  | fuel + 1, state =>
      match state.queue.pop? with
      | none => some state
      | some (p, queue) => do
          let visit ← s.visit? offsets (s.spot p)
          s.drainSteps? offsets kind mask fuel
            (visit.passed.foldl (offer kind mask (state.marker.get visit.index))
              { state with queue, pops := state.pops + 1 })

theorem drainSteps?_eq_some {offsets : List Offset} {neighbors : Fin s.len → List (Fin s.len)}
    (h : ∀ p : Fin s.len, s.visit? offsets (s.spot p) = some ⟨p, neighbors p⟩) (kind : Kind)
    (mask : Vector α s.len) (fuel : Nat) (state : Drained α s.len) :
    s.drainSteps? offsets kind mask fuel state =
      some (drainSteps kind mask neighbors fuel state) := by
  induction fuel generalizing state with
  | zero => rfl
  | succ fuel ih =>
      rw [drainSteps?, drainSteps, drainStep?]
      cases state.queue.pop? with
      | none => rfl
      | some popped =>
          simp only [h, Option.bind_eq_bind, Option.bind_some]
          exact ih _

/-- All passes, over the spots that the loops of the sweeps meet. -/
def propagate? (s : Shape) (kind : Kind) (connectivity : Connectivity)
    (forward backward : List (Nat × List Nat)) (mask marker : Vector α s.len) :
    Option (Vector α s.len × Stats) := do
  let neighborhood := s.neighborhood connectivity
  let swept ← s.sweep? neighborhood.causal (sweepStep kind mask) ⟨marker, 0⟩ forward
  let seeded ← s.sweep? neighborhood.anticausal (seedStep kind mask)
    ⟨⟨swept.marker, 0⟩, Queue.empty s.len⟩ backward
  let drained ← s.drainSteps? neighborhood.full kind mask (drainBound seeded.queue)
    ⟨⟨⟨seeded.marker, 0⟩, seeded.queue⟩, 0⟩
  return (drained.marker,
    { forwardUpdates := swept.updates
      backwardUpdates := seeded.updates
      seeds := seeded.queue.size
      pops := drained.pops
      queueUpdates := drained.updates })

/-! ## No access fails -/

theorem map_spot_range (s : Shape) :
    (List.range s.len).map s.spot = (List.finRange s.len).map fun p : Fin s.len => s.spot p := by
  rw [← List.map_coe_finRange_eq_range, List.map_map]
  rfl

theorem mapM_visit?_forward (hlen : s.len < Word.half) (connectivity : Connectivity) :
    ((List.range s.len).map s.spot).mapM (s.visit? (s.neighborhood connectivity).causal) =
      some (s.schedule connectivity).forward := by
  rw [map_spot_range, schedule_forward,
    mapM_visit?_spot hlen fun _ h => isStep_of_mem_full (mem_causal_iff.mp h).1]

theorem mapM_visit?_backward (hlen : s.len < Word.half) (connectivity : Connectivity) :
    ((List.range s.len).map s.spot).reverse.mapM
        (s.visit? (s.neighborhood connectivity).anticausal) =
      some (s.schedule connectivity).backward := by
  rw [map_spot_range, ← List.map_reverse, schedule_backward,
    mapM_visit?_spot hlen fun _ h => isStep_of_mem_full (mem_anticausal_iff.mp h).1]

theorem drainSteps?_full (hlen : s.len < Word.half) (kind : Kind) (connectivity : Connectivity)
    (mask : Vector α s.len) (fuel : Nat) (state : Drained α s.len) :
    s.drainSteps? (s.neighborhood connectivity).full kind mask fuel state =
      some (drainSteps kind mask (s.schedule connectivity).neighbors fuel state) :=
  drainSteps?_eq_some (visit?_spot hlen fun _ => isStep_of_mem_full) kind mask fuel state

theorem propagate?_eq_some (hlen : s.len < Word.half) (kind : Kind) (connectivity : Connectivity)
    {forward backward : List (Nat × List Nat)} (hforward : s.ForwardTour 0 s.firstCoords forward)
    (hbackward : s.BackwardTour (s.len - 1) s.lastCoords backward) (mask marker : Vector α s.len) :
    s.propagate? kind connectivity forward backward mask marker =
      some (propagate kind (s.schedule connectivity) mask marker) := by
  rw [forwardTour_iff.mp hforward, backwardTour_iff.mp hbackward, propagate?,
    sweep?_eq_some (mapM_visit?_forward hlen connectivity)]
  simp only [Option.bind_eq_bind, Option.bind_some,
    sweep?_eq_some (mapM_visit?_backward hlen connectivity), drainSteps?_full hlen]
  rfl

/-- In a shape whose length fits the signed words, a pass follows an offset exactly if the displaced
coordinates lie inside, and the sum of the index and the linear distance is then their index. The
loops of both sweeps meet every index once, beside its own coordinates. So no access of a pass or of
a whole reconstruction is out of bounds. -/
theorem reconstructInPlace_accesses_inside (s : Shape) (hlen : s.len < Word.half)
    (connectivity : Connectivity) :
    (∀ index < s.len, ∀ offset ∈ (s.neighborhood connectivity).full,
      let destination := displaced (s.coordsOf index) offset.delta
      (s.admits (s.coordsOf index) offset = true ↔ s.Encloses destination) ∧
        (s.Encloses destination → ∃ target < s.len,
          s.indexOf? (destination.map Int.toNat) = some target ∧
            (index : Int) + offset.linear = target ∧ offset.target index = target)) ∧
    (∀ spots, s.ForwardTour 0 s.firstCoords spots ↔
      spots = (List.range s.len).map fun index => (index, s.coordsOf index)) ∧
    (∀ spots, s.BackwardTour (s.len - 1) s.lastCoords spots ↔
      spots = ((List.range s.len).map fun index => (index, s.coordsOf index)).reverse) ∧
    (∀ (kind : Kind) (mask : Vector α s.len) (fuel : Nat) (state : Drained α s.len),
      s.drainSteps? (s.neighborhood connectivity).full kind mask fuel state =
        some (drainSteps kind mask (s.schedule connectivity).neighbors fuel state)) ∧
    ∀ (kind : Kind) (mask marker : Vector α s.len) (forward backward : List (Nat × List Nat)),
      s.ForwardTour 0 s.firstCoords forward → s.BackwardTour (s.len - 1) s.lastCoords backward →
        ∃ result stats,
          s.propagate? kind connectivity forward backward mask marker = some (result, stats) ∧
            ∀ check, (check = true → ∀ p, kind.respects (marker.get p) (mask.get p) = true) →
              Grid.reconstructInPlace ⟨s, hlen, marker⟩ ⟨s, hlen, mask⟩
                ⟨kind, connectivity, check⟩ = (⟨s, hlen, result⟩, .ok stats) := by
  refine ⟨?_, fun _ => forwardTour_iff, fun _ => backwardTour_iff,
    fun kind => drainSteps?_full hlen kind connectivity, ?_⟩
  · intro index hindex offset hoffset destination
    have hstep := isStep_of_mem_full hoffset
    refine ⟨admits_iff hlen hstep ⟨index, hindex⟩, ?_⟩
    intro hinside
    obtain ⟨q, hq⟩ := exists_target_eq (p := ⟨index, hindex⟩) hlen hstep hinside
    exact ⟨q, q.isLt, hq⟩
  · intro kind mask marker forward backward hforward hbackward
    refine ⟨_, _, propagate?_eq_some hlen kind connectivity hforward hbackward mask marker, ?_⟩
    intro check haccepted
    exact @Grid.reconstructInPlace_withData _ _ ⟨s, hlen, mask⟩ _ _ haccepted

/-- Two rows of three on three axes, one of them of extent one. -/
def ribbon : Shape := ⟨[2, 1, 3], by decide, by decide, by decide⟩

/-- From the coordinates [0, 0, 2] the offset [1, 0, -1] leads to the index 4, and the offset
[0, 0, 1] leads outside, although the sum 2 + 1 is an index too. -/
theorem reconstructInPlace_ribbon_accesses_inside :
    let forward := [(0, [0, 0, 0]), (1, [0, 0, 1]), (2, [0, 0, 2]), (3, [1, 0, 0]), (4, [1, 0, 1]),
      (5, [1, 0, 2])]
    let mask := Vector.replicate ribbon.len (Sample.nearest .u8 9)
    let marker := Vector.replicate ribbon.len (Sample.nearest .u8 4)
    ∃ hlen : ribbon.len < Word.half,
      (ribbon.Encloses (displaced (ribbon.coordsOf 2) [1, 0, -1]) ∧
        ∃ target < ribbon.len, ribbon.indexOf? [1, 0, 1] = some target ∧ (2 : Int) + 2 = target ∧
          Offset.target ⟨[1, 0, -1], 2⟩ 2 = target) ∧
      (ribbon.admits (ribbon.coordsOf 2) ⟨[0, 0, 1], 1⟩ = true ↔
        ribbon.Encloses (displaced (ribbon.coordsOf 2) [0, 0, 1])) ∧
      ribbon.ForwardTour 0 ribbon.firstCoords forward ∧
      ribbon.BackwardTour (ribbon.len - 1) ribbon.lastCoords forward.reverse ∧
      ∃ result stats,
        ribbon.propagate? .dilation .full forward forward.reverse mask marker =
            some (result, stats) ∧
          Grid.reconstructInPlace ⟨ribbon, hlen, marker⟩ ⟨ribbon, hlen, mask⟩
            ⟨.dilation, .full, true⟩ = (⟨ribbon, hlen, result⟩, .ok stats) := by
  intro forward mask marker
  have hlen : ribbon.len < Word.half := by decide
  obtain ⟨hoffsets, hforward, hbackward, _, hpasses⟩ :=
    reconstructInPlace_accesses_inside (α := Sample .u8) ribbon hlen .full
  have hinside : ribbon.Encloses (displaced (ribbon.coordsOf 2) [1, 0, -1]) :=
    encloses_iff.mpr (by decide)
  have hup : ribbon.ForwardTour 0 ribbon.firstCoords forward := (hforward _).mpr (by decide)
  have hdown : ribbon.BackwardTour (ribbon.len - 1) ribbon.lastCoords forward.reverse :=
    (hbackward _).mpr (by decide)
  have haccepted : ∀ p, Kind.dilation.respects (marker.get p) (mask.get p) = true := by
    decide +kernel
  obtain ⟨result, stats, hrun, hresult⟩ := hpasses .dilation mask marker _ _ hup hdown
  exact ⟨hlen, ⟨hinside, (hoffsets 2 (by decide) ⟨[1, 0, -1], 2⟩ (by decide)).2 hinside⟩,
    (hoffsets 2 (by decide) ⟨[0, 0, 1], 1⟩ (by decide)).1, hup, hdown, result, stats, hrun,
    hresult true fun _ => haccepted⟩

end Shape

end Morphology
