import Mathlib.Algebra.Order.BigOperators.Group.Finset
import Morphology.Proofs.Reconstruction.Result

/-! The naive procedure: rounds in which every element looks at its neighbors at once, until a round
changes nothing. It stops, at the grid that the sweeps and the queue compute. -/

namespace Morphology

variable {α : Type} [Pixel α]

namespace Grid

/-- The values of an element's neighbors inside the grid. -/
def neighborValues (g : Grid α) (connectivity : Connectivity) (p : Fin g.shape.len) : List α :=
  (neighborOffsets g.shape.ndim connectivity).filterMap fun offset =>
    g.getNeighbor? (g.shape.coordsOf p) offset.delta

/-- Every element takes the furthest of itself and its neighbors, cut at the mask; all read the
values from before the round. -/
def round (mask : Grid α) (kind : Kind) (connectivity : Connectivity)
    (marker : Vector α mask.shape.len) : Vector α mask.shape.len :=
  Vector.ofFn fun p =>
    let values := (mask.withData marker).neighborValues connectivity p
    kind.clamp (values.foldl kind.combine (marker.get p)) (mask.data.get p)

/-- The procedure stops at the first round that changes no value, and returns that round's grid. -/
inductive Settles (mask : Grid α) (kind : Kind) (connectivity : Connectivity) :
    Vector α mask.shape.len → Vector α mask.shape.len → Prop where
  | stop {marker} (h : SameValues (mask.round kind connectivity marker) marker) :
      Settles mask kind connectivity marker (mask.round kind connectivity marker)
  | again {marker result} (h : ¬ SameValues (mask.round kind connectivity marker) marker)
      (hnext : Settles mask kind connectivity (mask.round kind connectivity marker) result) :
      Settles mask kind connectivity marker result

omit [Pixel α] in
theorem getNeighbor?_unitStep (g : Grid α) {delta : List Int}
    (hdelta : delta ∈ unitSteps g.shape.ndim) (p : Fin g.shape.len) {a : α} :
    g.getNeighbor? (g.shape.coordsOf p) delta = some a ↔
      ∃ q : Fin g.shape.len,
        displacement (g.shape.coordsOf p) (g.shape.coordsOf q) = delta ∧ g.data.get q = a := by
  have hget (q : Fin g.shape.len) : g.data[(q : Nat)]? = some (g.data.get q) :=
    Vector.getElem?_eq_getElem q.isLt
  simp only [getNeighbor?, Option.bind_eq_some_iff,
    Shape.neighborIndex?_unitStep g.len_lt hdelta p]
  constructor
  · intro hexists
    obtain ⟨index, ⟨q, hmove, rfl⟩, hvalue⟩ := hexists
    rw [hget, Option.some.injEq] at hvalue
    exact ⟨q, hmove, hvalue⟩
  · intro hexists
    obtain ⟨q, hmove, rfl⟩ := hexists
    exact ⟨q, ⟨q, hmove, rfl⟩, hget q⟩

omit [Pixel α] in
theorem mem_neighborValues_iff (g : Grid α) (connectivity : Connectivity) (p : Fin g.shape.len)
    {a : α} :
    a ∈ g.neighborValues connectivity p ↔
      ∃ q, g.shape.Adjacent connectivity p q ∧ g.data.get q = a := by
  rw [neighborValues, neighborOffsets, List.filterMap_map, List.mem_filterMap]
  simp only [List.mem_filter, Function.comp_apply, Offset.ofDelta]
  constructor
  · intro hexists
    obtain ⟨delta, ⟨hdelta, hkeeps⟩, hvalue⟩ := hexists
    obtain ⟨q, rfl, hq⟩ := (g.getNeighbor?_unitStep hdelta p).mp hvalue
    exact ⟨q, ⟨(mem_unitSteps.mp hdelta).2, hkeeps⟩, hq⟩
  · intro hexists
    obtain ⟨q, ⟨hunit, hkeeps⟩, hq⟩ := hexists
    have hdelta := mem_unitSteps.mpr ⟨Shape.length_displacement_coordsOf p q, hunit⟩
    exact ⟨_, ⟨hdelta, hkeeps⟩, (g.getNeighbor?_unitStep hdelta p).mpr ⟨q, rfl, hq⟩⟩

variable {mask : Grid α} {kind : Kind} {connectivity : Connectivity}
  {start marker result : Vector α mask.shape.len}

theorem round_spec (kind : Kind) (connectivity : Connectivity) (hmask : AllOrdered mask.data)
    (hmarker : AllOrdered marker) :
    AllOrdered (mask.round kind connectivity marker) ∧
      ∀ t p, t ≤ levels kind (mask.round kind connectivity marker) p ↔
        (t ≤ levels kind marker p ∨
          ∃ q, mask.shape.Adjacent connectivity p q ∧ t ≤ levels kind marker q) ∧
          t ≤ levels kind mask.data p := by
  have hvalues (p : Fin mask.shape.len) (a : α) :
      a ∈ (mask.withData marker).neighborValues connectivity p ↔
        ∃ q, mask.shape.Adjacent connectivity p q ∧ marker.get q = a :=
    (mask.withData marker).mem_neighborValues_iff connectivity p
  have hordered (p : Fin mask.shape.len) :
      ∀ a ∈ (mask.withData marker).neighborValues connectivity p, Pixel.Ordered a := by
    intro a ha
    obtain ⟨q, _, rfl⟩ := (hvalues p a).mp ha
    exact hmarker q
  have hfurthest (p : Fin mask.shape.len) :=
    Kind.ordered_foldl_combine kind
      ((mask.withData marker).neighborValues connectivity p) (hmarker p)
  constructor
  · intro p
    rw [round, get_ofFn]
    exact Kind.ordered_clamp (hfurthest p)
  · intro t p
    rw [levels, round, get_ofFn, Kind.level_clamp (hfurthest p) (hmask p), le_min_iff,
      Kind.le_level_foldl_combine_iff kind (hordered p) (hmarker p)]
    simp only [hvalues, exists_exists_and_eq_and, levels]

/-- Below the mask a round lowers nothing. -/
theorem le_round (connectivity : Connectivity) (hmask : AllOrdered mask.data)
    (hmarker : AllOrdered marker) (hbelow : ∀ p, levels kind marker p ≤ levels kind mask.data p)
    (p : Fin mask.shape.len) :
    levels kind marker p ≤ levels kind (mask.round kind connectivity marker) p :=
  ((round_spec kind connectivity hmask hmarker).2 _ p).mpr ⟨.inl le_rfl, hbelow p⟩

theorem sweepInvariant_round (hmask : AllOrdered mask.data)
    (h : SweepInvariant kind (mask.shape.Adjacent connectivity) mask.data start Set.univ marker) :
    SweepInvariant kind (mask.shape.Adjacent connectivity) mask.data start Set.univ
      (mask.round kind connectivity marker) := by
  have hbelow (p : Fin mask.shape.len) := h.below p (Set.mem_univ p)
  obtain ⟨hordered, hlevel⟩ := round_spec kind connectivity hmask h.ordered
  refine ⟨hordered, fun p _ => ((hlevel _ p).mp le_rfl).2, ?_⟩
  intro t p
  rw [← h.reach]
  constructor
  · intro hr
    apply hr.of_sources
    intro q ht hpass
    rcases ((hlevel t q).mp ht).1 with hown | ⟨r, hadj, hneighbor⟩
    · exact .source hown hpass
    · exact .step (.source hneighbor (hneighbor.trans (hbelow r))) hadj.symm hpass
  · intro hr
    apply hr.of_sources
    intro q ht hpass
    exact .source (ht.trans (le_round connectivity hmask h.ordered hbelow q)) hpass

/-! ## All rounds -/

/-- How far the marker lies below its mask, over all elements. -/
def remaining (kind : Kind) (mask : Grid α) (marker : Vector α mask.shape.len) : Nat :=
  ∑ p, (levels kind mask.data p - levels kind marker p).toNat

theorem remaining_round_lt (hmask : AllOrdered mask.data) (hmarker : AllOrdered marker)
    (hbelow : ∀ p, levels kind marker p ≤ levels kind mask.data p)
    (hchanged : ¬ SameValues (mask.round kind connectivity marker) marker) :
    remaining kind mask (mask.round kind connectivity marker) < remaining kind mask marker := by
  obtain ⟨hordered, hlevel⟩ := round_spec kind connectivity hmask hmarker
  have hrise := le_round connectivity hmask hmarker hbelow
  rw [sameValues_iff kind hordered hmarker, funext_iff, not_forall] at hchanged
  obtain ⟨q, hq⟩ := hchanged
  have hcut : levels kind (mask.round kind connectivity marker) q ≤ levels kind mask.data q :=
    ((hlevel _ q).mp le_rfl).2
  apply Finset.sum_lt_sum
  · intro p _
    exact Int.toNat_le_toNat (Int.sub_le_sub_left (hrise p) _)
  · refine ⟨q, Finset.mem_univ q, ?_⟩
    have hstrict := lt_of_le_of_ne (hrise q) (Ne.symm hq)
    omega

theorem exists_settles (hmask : AllOrdered mask.data)
    (h : SweepInvariant kind (mask.shape.Adjacent connectivity) mask.data start Set.univ marker) :
    ∃ result, mask.Settles kind connectivity marker result := by
  induction hbound : remaining kind mask marker using Nat.strong_induction_on
    generalizing marker with
  | _ bound ih =>
      by_cases hsame : SameValues (mask.round kind connectivity marker) marker
      · exact ⟨_, .stop hsame⟩
      · have hless := remaining_round_lt hmask h.ordered (fun p => h.below p (Set.mem_univ p)) hsame
        obtain ⟨result, hresult⟩ := ih _ (hbound ▸ hless) (sweepInvariant_round hmask h) rfl
        exact ⟨result, .again hsame hresult⟩

theorem Settles.round_result (h : mask.Settles kind connectivity marker result)
    (hmask : AllOrdered mask.data)
    (hmarker : SweepInvariant kind (mask.shape.Adjacent connectivity) mask.data start Set.univ
      marker) :
    SweepInvariant kind (mask.shape.Adjacent connectivity) mask.data start Set.univ result ∧
      SameValues (mask.round kind connectivity result) result := by
  induction h with
  | @stop marker hsame =>
      have hround := sweepInvariant_round hmask hmarker
      have hagain := sweepInvariant_round hmask hround
      refine ⟨hround, ?_⟩
      apply sameValues_of_thresholds kind hagain.ordered hround.ordered
      intro t p
      -- Both rounds read the same levels.
      rw [(round_spec kind connectivity hmask hround.ordered).2,
        (sameValues_iff kind hround.ordered hmarker.ordered).mp hsame,
        ← (round_spec kind connectivity hmask hmarker.ordered).2,
        (sameValues_iff kind hround.ordered hmarker.ordered).mp hsame]
  | again _ _ ih => exact ih (sweepInvariant_round hmask hmarker)

theorem stable_of_round (hmask : AllOrdered mask.data) (hmarker : AllOrdered marker)
    (hsame : SameValues (mask.round kind connectivity marker) marker) :
    Stable (mask.shape.Adjacent connectivity) (levels kind mask.data) (levels kind marker) := by
  obtain ⟨hordered, hlevel⟩ := round_spec kind connectivity hmask hmarker
  intro p q hadj
  calc min (levels kind marker p) (levels kind mask.data q)
      ≤ levels kind (mask.round kind connectivity marker) q :=
        (hlevel _ q).mpr ⟨.inr ⟨p, hadj.symm, min_le_left _ _⟩, min_le_right _ _⟩
    _ = levels kind marker q := congrFun ((sameValues_iff kind hordered hmarker).mp hsame) q

/-- From a marker that respects its mask the rounds come to an end, at a grid that a further round
leaves as it is, and that is the grid of the reconstruction. -/
theorem reconstruct_sameValues_rounds (mask : Grid α) (marker : Vector α mask.shape.len)
    (o : Options) (hmask : AllOrdered mask.data) (hmarker : AllOrdered marker)
    (hrespects : ∀ p, o.kind.respects (marker.get p) (mask.data.get p) = true) :
    ∃ result : Vector α mask.shape.len,
      (mask.withData marker).reconstruct mask o = .ok (mask.withData result) ∧
        (∃ settled, mask.Settles o.kind o.connectivity marker settled) ∧
        ∀ settled, mask.Settles o.kind o.connectivity marker settled →
          SameValues (mask.round o.kind o.connectivity settled) settled ∧
            SameValues result settled := by
  obtain ⟨hordered, hlevel⟩ := propagate_schedule_spec o.kind o.connectivity hmask hmarker
  have hstart : SweepInvariant o.kind (mask.shape.Adjacent o.connectivity) mask.data marker
      Set.univ marker :=
    ⟨hmarker, fun p _ => (Kind.respects_iff (hmarker p) (hmask p)).mp (hrespects p),
      fun _ _ => Iff.rfl⟩
  refine ⟨_, reconstruct_withData fun _ => hrespects, exists_settles hmask hstart, ?_⟩
  intro settled hsettled
  obtain ⟨hend, hsame⟩ := hsettled.round_result hmask hstart
  refine ⟨hsame, ?_⟩
  apply sameValues_of_thresholds o.kind hordered hend.ordered
  intro t p
  rw [hlevel, (stable_of_round hmask hend.ordered hsame).le_iff_reached
    fun x => hend.below x (Set.mem_univ x), hend.reach]

theorem reconstruct_meander_sameValues_rounds :
    (∀ p, Kind.dilation.respects ((meanderSeed 3).get p) (meander.data.get p) = true) ∧
      ∃ result : Vector (Sample .u8) meander.shape.len,
        (meander.withData (meanderSeed 3)).reconstruct meander .dilation =
            .ok (meander.withData result) ∧
          (∃ settled, meander.Settles .dilation .face (meanderSeed 3) settled) ∧
          ∀ settled, meander.Settles .dilation .face (meanderSeed 3) settled →
            SameValues (meander.round .dilation .face settled) settled ∧
              SameValues result settled :=
  ⟨respects_meanderSeed,
    reconstruct_sameValues_rounds meander (meanderSeed 3) .dilation (allOrdered_sample _)
      (allOrdered_sample _) respects_meanderSeed⟩

end Grid

end Morphology
