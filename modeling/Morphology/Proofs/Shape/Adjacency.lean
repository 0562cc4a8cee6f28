import Mathlib.Data.Int.ModEq
import Morphology.Neighborhood
import Morphology.Proofs.Shape.Stepping

/-! The neighbors listed for an element are exactly the elements whose coordinates lie one step
away, and the causal ones are those with a smaller index. -/

namespace Morphology

/-- How far the second coordinates lie from the first, axis by axis. -/
def displacement (a b : List Nat) : List Int :=
  List.zipWith (fun x y : Nat => (y : Int) - x) a b

@[simp] theorem displacement_cons (x y : Nat) (xs ys : List Nat) :
    displacement (x :: xs) (y :: ys) = ((y : Int) - x) :: displacement xs ys := rfl

theorem eq_zero_of_mem_displacement_self {coords : List Nat} {d : Int}
    (h : d ∈ displacement coords coords) : d = 0 := by
  simp only [displacement, List.zipWith_self, List.mem_map] at h
  obtain ⟨x, _, rfl⟩ := h
  exact Int.sub_self _

theorem displacement_swap (a b : List Nat) :
    displacement b a = (displacement a b).map (- ·) := by
  induction a generalizing b with
  | nil => cases b <;> rfl
  | cons x xs ih =>
      cases b with
      | nil => rfl
      | cons y ys => simp [ih ys]

theorem length_displacement {a b : List Nat} (h : a.length = b.length) :
    (displacement a b).length = a.length := by
  simp [displacement, ← h]

/-- The first axis on which two positions differ decides their order. -/
theorem displacement_precedes_iff {a b : List Nat} (h : a.length = b.length) :
    ((displacement a b).find? (· ≠ 0)).any (· < 0) = true ↔ b < a := by
  induction a generalizing b with
  | nil => simp [displacement, List.eq_nil_of_length_eq_zero h.symm]
  | cons x xs ih =>
      cases b with
      | nil => simp at h
      | cons y ys =>
          have hrest := ih (by simpa using h)
          rw [displacement_cons, List.cons_lt_cons_iff, List.find?_cons]
          by_cases hxy : (y : Int) - x = 0
          · have heq : y = x := by omega
            simpa [heq] using hrest
          · have hne : y ≠ x := by omega
            simp only [hxy, ne_eq, not_false_eq_true, decide_true, Option.any_some,
              decide_eq_true_eq, hne, false_and, or_false]
            omega

theorem mem_unitSteps {n : Nat} {delta : List Int} :
    delta ∈ unitSteps n ↔ delta.length = n ∧ ∀ d ∈ delta, d.natAbs ≤ 1 := by
  induction n generalizing delta with
  | zero =>
      rw [unitSteps, List.mem_singleton, List.length_eq_zero_iff]
      constructor
      · rintro rfl
        simp
      · exact fun h => h.1
  | succ n ih =>
      cases delta with
      | nil => simp [unitSteps]
      | cons d ds =>
          have hd : d.natAbs ≤ 1 ↔ d = -1 ∨ d = 0 ∨ d = 1 := by omega
          simp only [unitSteps, List.flatMap_cons, List.flatMap_nil, List.mem_append,
            List.mem_map, List.cons.injEq, List.append_nil, ih, List.length_cons,
            List.mem_cons, forall_eq_or_imp, hd]
          constructor
          · rintro (⟨w, ⟨rfl, hw⟩, rfl, rfl⟩ | ⟨w, ⟨rfl, hw⟩, rfl, rfl⟩ |
              ⟨w, ⟨rfl, hw⟩, rfl, rfl⟩) <;> simpa using hw
          · rintro ⟨hlen, hd | hd | hd, hds⟩
            · exact .inl ⟨ds, ⟨by omega, hds⟩, hd.symm, rfl⟩
            · exact .inr (.inl ⟨ds, ⟨by omega, hds⟩, hd.symm, rfl⟩)
            · exact .inr (.inr ⟨ds, ⟨by omega, hds⟩, hd.symm, rfl⟩)

namespace Shape

/-! ## Bounds of machine words -/

theorem le_volume_of_mem {dims : List Nat} (h : 0 < volume dims) {d : Nat} (hd : d ∈ dims) :
    d ≤ volume dims := by
  induction dims with
  | nil => simp at hd
  | cons e es ih =>
      have hes : 0 < volume es := Nat.pos_of_mul_pos_left h
      have he : 0 < e := Nat.pos_of_mul_pos_right h
      rcases List.mem_cons.mp hd with rfl | hd
      · exact Nat.le_mul_of_pos_right _ hes
      · exact (ih hes hd).trans (Nat.le_mul_of_pos_left _ he)

/-- The sum on one axis does not leave the signed words. -/
def SumFits (c : Nat) (o : Int) : Prop :=
  -(Word.half : Int) ≤ c + o ∧ c + o < Word.half

theorem wrap_sum {c d : Nat} {o : Int} (hc : c < d) (hd : d ≤ Word.half) (ho : SumFits c o) :
    Word.wrap (Word.signed c + o) = c + o := by
  rw [Word.signed_of_lt (Nat.lt_of_lt_of_le hc hd)]
  exact Word.wrap_of_bounded ho.1 ho.2

/-- An offset stays inside exactly when it leads to a position inside. -/
theorem reaches_iff {coords dims : List Nat} {delta : List Int}
    (hin : inside coords dims = true) (hdims : ∀ d ∈ dims, d ≤ Word.half)
    (hsum : List.Forall₂ SumFits coords delta) :
    reaches coords delta dims = true ↔
      ∃ target, inside target dims = true ∧ displacement coords target = delta := by
  induction hin using inside_induction generalizing delta with
  | nil =>
      cases hsum
      constructor
      · exact fun _ => ⟨[], rfl, rfl⟩
      · exact fun _ => rfl
  | cons c d cs ds hc hcs ih =>
      cases hsum with
      | @cons _ o _ os ho hrest =>
          have hwrap := wrap_sum hc (hdims d (by simp)) ho
          have htail := ih (fun e he => hdims e (by simp [he])) hrest
          simp only [reaches, hwrap, Bool.and_eq_true, decide_eq_true_eq, htail]
          constructor
          · intro hexists
            obtain ⟨⟨hlow, hhigh⟩, target, hinside, hmove⟩ := hexists
            refine ⟨(c + o).toNat :: target, (inside_cons ..).mpr ⟨hhigh, hinside⟩, ?_⟩
            rw [displacement_cons, hmove, Int.toNat_of_nonneg hlow, add_sub_cancel_left]
          · intro hexists
            obtain ⟨target, hinside, hmove⟩ := hexists
            obtain ⟨t, ts, rfl, ht, hts⟩ := exists_cons_of_inside hinside
            rw [displacement_cons, List.cons.injEq] at hmove
            exact ⟨⟨by omega, by omega⟩, ts, hts, hmove.2⟩

theorem reaches_of_interior {coords dims : List Nat} {delta : List Int}
    (hin : inside coords dims = true) (hdims : ∀ d ∈ dims, d ≤ Word.half)
    (hunit : ∀ o ∈ delta, o.natAbs ≤ 1) (hinterior : touches coords dims = false) :
    reaches coords delta dims = true := by
  induction hin using inside_induction generalizing delta with
  | nil => simp [reaches]
  | cons c d cs ds hc hcs ih =>
      cases delta with
      | nil => rfl
      | cons o os =>
          have hd := hdims d (by simp)
          have ho := hunit o (by simp)
          simp only [touches, Bool.or_eq_false_iff, decide_eq_false_iff_not] at hinterior
          have hfits : SumFits c o := by
            simp only [SumFits, Word.half] at hd ⊢
            omega
          have hrest : reaches cs os ds = true :=
            ih (fun e he => hdims e (by simp [he])) (fun e he => hunit e (by simp [he]))
              hinterior.2
          simp only [reaches, wrap_sum hc hd hfits, hrest, Bool.and_true,
            Bool.and_eq_true, decide_eq_true_eq]
          omega

/-! ## Linear distances -/

theorem wrap_modEq (x : Int) : Word.wrap x ≡ x [ZMOD Word.modulus] :=
  Int.bmod_emod

theorem wrap_congr {x y : Int} (h : x ≡ y [ZMOD Word.modulus]) : Word.wrap x = Word.wrap y := by
  rw [Word.wrap, ← Int.emod_bmod, h, Int.emod_bmod, ← Word.wrap]

/-- What a displacement adds to the linear index, as a residue. -/
theorem signedDot_displacement {a b : List Nat} (h : a.length = b.length)
    (strides : List Nat) :
    (dot a strides : Int) + signedDot (displacement a b) strides ≡ dot b strides
      [ZMOD Word.modulus] := by
  induction strides generalizing a b with
  | nil => cases a <;> cases b <;> simp [displacement, dot, signedDot]
  | cons s ss ih =>
      cases a with
      | nil =>
          rw [List.eq_nil_of_length_eq_zero h.symm]
          rfl
      | cons x xs =>
          cases b with
          | nil => simp at h
          | cons y ys =>
              have hstride : ((y : Int) - x) * Word.signed s ≡ ((y : Int) - x) * s
                  [ZMOD Word.modulus] := (wrap_modEq s).mul_left _
              have hsum := (hstride.add (ih (by simpa using h))).add_left ((x : Int) * s)
              have hleft : ((x * s + dot xs ss : Nat) : Int) + (((y : Int) - x) * Word.signed s +
                  signedDot (displacement xs ys) ss) = (x : Int) * s +
                    (((y : Int) - x) * Word.signed s +
                      ((dot xs ss : Int) + signedDot (displacement xs ys) ss)) := by
                push_cast
                omega
              have hright : ((y * s + dot ys ss : Nat) : Int) =
                  (x : Int) * s + (((y : Int) - x) * s + dot ys ss) := by
                push_cast
                rw [Int.sub_mul]
                omega
              simp only [displacement_cons, signedDot, dot]
              rw [hleft, hright]
              exact hsum

variable {s : Shape}

theorem dims_lt_half (hlen : s.len < Word.half) : ∀ d ∈ s.dims, d < Word.half :=
  fun _ hd => (le_volume_of_mem s.len_pos hd).trans_lt hlen

/-- The linear distance of a displacement leads from the one index to the other, in words that wrap
around. -/
theorem unsigned_add_linearDelta {a b : List Nat} (ha : s.contains a = true)
    (hb : s.contains b = true) :
    Word.unsigned (Word.signed (s.indexOfUnchecked a) + s.linearDelta (displacement a b)) =
      s.indexOfUnchecked b := by
  have hlength : a.length = b.length := (length_of_inside ha).trans (length_of_inside hb).symm
  have hmod : Word.signed (s.indexOfUnchecked a) + s.linearDelta (displacement a b) ≡
      s.indexOfUnchecked b [ZMOD Word.modulus] :=
    ((wrap_modEq _).add (wrap_modEq _)).trans (signedDot_displacement hlength s.strides)
  have hsmall : s.indexOfUnchecked b < Word.modulus := (indexOfUnchecked_lt hb).trans s.volume_lt
  rw [Word.unsigned, hmod, ← Word.unsigned, Word.unsigned_natCast hsmall]

theorem shift?_displacement (p q : Fin s.len) :
    s.shift? p ⟨displacement (s.coordsOf p) (s.coordsOf q),
      s.linearDelta (displacement (s.coordsOf p) (s.coordsOf q))⟩ = some q := by
  have hindex := unsigned_add_linearDelta (contains_coordsOf p.isLt) (contains_coordsOf q.isLt)
  rw [indexOfUnchecked_coordsOf, indexOfUnchecked_coordsOf] at hindex
  simp only [shift?, hindex, q.isLt, dite_true]

theorem neighborIndex?_eq_some_iff {coords : List Nat} {offset : List Int} {index : Nat}
    (hin : s.contains coords = true) (hdims : ∀ d ∈ s.dims, d ≤ Word.half)
    (hsum : List.Forall₂ SumFits coords offset) :
    s.neighborIndex? coords offset = some index ↔
      ∃ target, s.contains target = true ∧ displacement coords target = offset ∧
        s.indexOfUnchecked target = index := by
  have hcoords : coords.length = s.ndim := length_of_inside hin
  have hoffset : offset.length = s.ndim := hsum.length_eq.symm.trans hcoords
  have hlengths : ¬ (coords.length ≠ s.ndim ∨ offset.length ≠ s.ndim) := by simp [hcoords, hoffset]
  have hreach : s.offsetInBounds coords offset = true ↔
      ∃ target, s.contains target = true ∧ displacement coords target = offset :=
    reaches_iff hin hdims hsum
  rw [neighborIndex?, if_neg hlengths]
  constructor
  · intro h
    split at h
    · next hinside =>
        obtain ⟨target, htarget, rfl⟩ := hreach.mp hinside
        rw [unsigned_add_linearDelta hin htarget, Option.some.injEq] at h
        exact ⟨target, htarget, rfl, h⟩
    · cases h
  · intro hexists
    obtain ⟨target, htarget, rfl, rfl⟩ := hexists
    rw [if_pos (hreach.mpr ⟨target, htarget, rfl⟩), unsigned_add_linearDelta hin htarget]

/-! ## Neighbors of an element -/

/-- Two elements touch if their coordinates differ by at most one on each axis: across a face on
exactly one axis, in full on at least one. -/
def Adjacent (s : Shape) (connectivity : Connectivity) (p q : Fin s.len) : Prop :=
  (∀ d ∈ displacement (s.coordsOf p) (s.coordsOf q), d.natAbs ≤ 1) ∧
    connectivity.keeps (displacement (s.coordsOf p) (s.coordsOf q)) = true

instance (s : Shape) (connectivity : Connectivity) (p q : Fin s.len) :
    Decidable (s.Adjacent connectivity p q) :=
  inferInstanceAs (Decidable (_ ∧ _))

theorem length_displacement_coordsOf (p q : Nat) :
    (displacement (s.coordsOf p) (s.coordsOf q)).length = s.ndim := by
  rw [length_displacement (by rw [length_coordsOf, length_coordsOf]), length_coordsOf]

theorem keeps_map_neg (connectivity : Connectivity) (delta : List Int) :
    connectivity.keeps (delta.map (- ·)) = connectivity.keeps delta := by
  have hcount : (delta.map (- ·)).countP (· ≠ 0) = delta.countP (· ≠ 0) := by
    rw [List.countP_map]
    congr 1
    funext d
    simp
  cases connectivity <;> simp only [Connectivity.keeps, hcount]

theorem Adjacent.symm {connectivity : Connectivity} {p q : Fin s.len}
    (h : s.Adjacent connectivity p q) : s.Adjacent connectivity q p := by
  rw [Adjacent, displacement_swap (s.coordsOf p), keeps_map_neg]
  refine ⟨?_, h.2⟩
  intro d hd
  obtain ⟨e, he, rfl⟩ := List.mem_map.mp hd
  rw [Int.natAbs_neg]
  exact h.1 e he

theorem Adjacent.full {connectivity : Connectivity} {p q : Fin s.len}
    (h : s.Adjacent connectivity p q) : s.Adjacent .full p q := by
  refine ⟨h.1, ?_⟩
  have hkeeps := h.2
  cases connectivity <;> simp only [Connectivity.keeps, decide_eq_true_eq] at hkeeps ⊢ <;> omega

theorem exists_ne_zero_of_keeps {connectivity : Connectivity} {delta : List Int}
    (h : connectivity.keeps delta = true) : ∃ d ∈ delta, d ≠ 0 := by
  have hpos : 0 < delta.countP (· ≠ 0) := by
    cases connectivity <;> simp only [Connectivity.keeps, decide_eq_true_eq] at h <;> omega
  obtain ⟨d, hd, hne⟩ := List.countP_pos_iff.mp hpos
  exact ⟨d, hd, of_decide_eq_true hne⟩

theorem Adjacent.ne {connectivity : Connectivity} {p q : Fin s.len}
    (h : s.Adjacent connectivity p q) : p ≠ q := by
  rintro rfl
  obtain ⟨d, hd, hne⟩ := exists_ne_zero_of_keeps h.2
  exact hne (eq_zero_of_mem_displacement_self hd)

/-- Offsets of a shape's neighborhoods: unit steps with their linear distances. -/
def IsStep (s : Shape) (offset : Offset) : Prop :=
  offset.delta ∈ unitSteps s.ndim ∧ offset.linear = s.linearDelta offset.delta

theorem sumFits_of_unit {coords dims : List Nat} {delta : List Int}
    (hin : inside coords dims = true) (hdims : ∀ d ∈ dims, d < Word.half)
    (hlength : delta.length = dims.length) (hunit : ∀ o ∈ delta, o.natAbs ≤ 1) :
    List.Forall₂ SumFits coords delta := by
  induction hin using inside_induction generalizing delta with
  | nil =>
      rw [List.eq_nil_of_length_eq_zero hlength]
      exact .nil
  | cons c d cs ds hc hcs ih =>
      cases delta with
      | nil => simp at hlength
      | cons o os =>
          have hd := hdims d (by simp)
          have ho := hunit o (by simp)
          refine .cons ?_ (ih (fun e he => hdims e (by simp [he]))
            (by simpa using hlength) (fun e he => hunit e (by simp [he])))
          simp only [SumFits, Word.half] at hd ⊢
          omega

/-- The test for a neighbor, with its short cut away from the boundary, is exact. -/
theorem unitStep_inside_iff (hlen : s.len < Word.half) {delta : List Int}
    (hdelta : delta ∈ unitSteps s.ndim) (p : Fin s.len) :
    (!s.isBoundary (s.coordsOf p) || s.offsetInBounds (s.coordsOf p) delta) = true ↔
      ∃ q : Fin s.len, displacement (s.coordsOf p) (s.coordsOf q) = delta := by
  obtain ⟨hlength, hunit⟩ := mem_unitSteps.mp hdelta
  have hin : inside (s.coordsOf p) s.dims = true := contains_coordsOf p.isLt
  have hdims := dims_lt_half hlen
  have hreach : s.offsetInBounds (s.coordsOf p) delta = true ↔
      ∃ q : Fin s.len, displacement (s.coordsOf p) (s.coordsOf q) = delta := by
    rw [offsetInBounds, reaches_iff hin (fun d hd => (hdims d hd).le)
      (sumFits_of_unit hin hdims hlength hunit)]
    constructor
    · intro hexists
      obtain ⟨target, htarget, hmove⟩ := hexists
      refine ⟨⟨s.indexOfUnchecked target, indexOfUnchecked_lt htarget⟩, ?_⟩
      rw [coordsOf_indexOfUnchecked htarget]
      exact hmove
    · intro hexists
      obtain ⟨q, hmove⟩ := hexists
      exact ⟨s.coordsOf q, contains_coordsOf q.isLt, hmove⟩
  rw [← hreach]
  cases hboundary : s.isBoundary (s.coordsOf p) with
  | true => rfl
  | false =>
      have hall : s.offsetInBounds (s.coordsOf p) delta = true :=
        reaches_of_interior hin (fun d hd => (hdims d hd).le) hunit hboundary
      simp [hall]

theorem shift?_eq_some_iff (hlen : s.len < Word.half) {offset : Offset} (hstep : s.IsStep offset)
    {p q : Fin s.len}
    (hinside : (!s.isBoundary (s.coordsOf p) || s.offsetInBounds (s.coordsOf p) offset.delta) =
      true) :
    s.shift? p offset = some q ↔ displacement (s.coordsOf p) (s.coordsOf q) = offset.delta := by
  have hshift {r : Fin s.len} (hmove : displacement (s.coordsOf p) (s.coordsOf r) = offset.delta) :
      s.shift? p offset = some r := by
    have h := shift?_displacement p r
    rwa [hmove, ← hstep.2] at h
  refine ⟨?_, hshift⟩
  intro hq
  obtain ⟨r, hmove⟩ := (unitStep_inside_iff hlen hstep.1 p).mp hinside
  rw [hshift hmove, Option.some.injEq] at hq
  rw [← hq, hmove]

theorem mem_neighborsOf (hlen : s.len < Word.half) {offsets : List Offset}
    (hsteps : ∀ offset ∈ offsets, s.IsStep offset) (p q : Fin s.len) :
    q ∈ s.neighborsOf offsets (s.site p) ↔
      ∃ offset ∈ offsets, offset.delta = displacement (s.coordsOf p) (s.coordsOf q) := by
  simp only [neighborsOf, site, List.mem_filterMap, List.mem_filter]
  constructor
  · intro hexists
    obtain ⟨offset, ⟨hmem, hinside⟩, hq⟩ := hexists
    exact ⟨offset, hmem, ((shift?_eq_some_iff hlen (hsteps offset hmem) hinside).mp hq).symm⟩
  · intro hexists
    obtain ⟨offset, hmem, hmove⟩ := hexists
    have hstep := hsteps offset hmem
    have hinside := (unitStep_inside_iff hlen hstep.1 p).mpr ⟨q, hmove.symm⟩
    exact ⟨offset, ⟨hmem, hinside⟩, (shift?_eq_some_iff hlen hstep hinside).mpr hmove.symm⟩

theorem neighborIndex?_unitStep (hlen : s.len < Word.half) {delta : List Int}
    (hdelta : delta ∈ unitSteps s.ndim) (p : Fin s.len) {index : Nat} :
    s.neighborIndex? (s.coordsOf p) delta = some index ↔
      ∃ q : Fin s.len, displacement (s.coordsOf p) (s.coordsOf q) = delta ∧ q = index := by
  obtain ⟨hlength, hunit⟩ := mem_unitSteps.mp hdelta
  have hin : s.contains (s.coordsOf p) = true := contains_coordsOf p.isLt
  have hdims := dims_lt_half hlen
  rw [neighborIndex?_eq_some_iff hin (fun d hd => (hdims d hd).le)
    (sumFits_of_unit hin hdims hlength hunit)]
  constructor
  · intro hexists
    obtain ⟨target, htarget, hmove, hindex⟩ := hexists
    refine ⟨⟨s.indexOfUnchecked target, indexOfUnchecked_lt htarget⟩, ?_, hindex⟩
    rw [coordsOf_indexOfUnchecked htarget]
    exact hmove
  · intro hexists
    obtain ⟨q, hmove, hindex⟩ := hexists
    exact ⟨s.coordsOf q, contains_coordsOf q.isLt, hmove, by rw [indexOfUnchecked_coordsOf, hindex]⟩

/-! ## The three neighborhoods -/

theorem isStep_of_mem_full {connectivity : Connectivity} {offset : Offset}
    (h : offset ∈ (s.neighborhood connectivity).full) : s.IsStep offset := by
  simp only [neighborhood, neighborOffsets, List.map_map, List.mem_map,
    List.mem_filter] at h
  obtain ⟨delta, ⟨hdelta, _⟩, rfl⟩ := h
  exact ⟨hdelta, rfl⟩

theorem exists_mem_full_iff {connectivity : Connectivity} {delta : List Int} :
    (∃ offset ∈ (s.neighborhood connectivity).full, offset.delta = delta) ↔
      delta ∈ unitSteps s.ndim ∧ connectivity.keeps delta = true := by
  simp only [neighborhood, neighborOffsets, List.map_map, List.mem_map,
    List.mem_filter]
  constructor
  · intro hexists
    obtain ⟨_, ⟨delta, hdelta, rfl⟩, rfl⟩ := hexists
    exact hdelta
  · intro hdelta
    exact ⟨_, ⟨delta, hdelta, rfl⟩, rfl⟩

theorem mem_causal_iff {connectivity : Connectivity} {offset : Offset} :
    offset ∈ (s.neighborhood connectivity).causal ↔
      offset ∈ (s.neighborhood connectivity).full ∧ offset.precedesInRasterOrder = true := by
  simp [neighborhood, partition, List.partition_eq_filter_filter]

theorem mem_anticausal_iff {connectivity : Connectivity} {offset : Offset} :
    offset ∈ (s.neighborhood connectivity).anticausal ↔
      offset ∈ (s.neighborhood connectivity).full ∧ offset.precedesInRasterOrder = false := by
  simp [neighborhood, partition, List.partition_eq_filter_filter]

/-- An offset is causal exactly when it leads to a smaller index. -/
theorem precedesInRasterOrder_iff {offset : Offset} {p q : Fin s.len}
    (h : offset.delta = displacement (s.coordsOf p) (s.coordsOf q)) :
    offset.precedesInRasterOrder = true ↔ q < p := by
  have hlength : (s.coordsOf p).length = (s.coordsOf q).length := by
    rw [length_coordsOf, length_coordsOf]
  rw [Offset.precedesInRasterOrder, h, displacement_precedes_iff hlength, coordsOf_lt_iff]

theorem mem_neighborsOf_full (hlen : s.len < Word.half) {connectivity : Connectivity}
    {p q : Fin s.len} :
    q ∈ s.neighborsOf (s.neighborhood connectivity).full (s.site p) ↔
      s.Adjacent connectivity p q := by
  rw [mem_neighborsOf hlen (fun _ => isStep_of_mem_full), exists_mem_full_iff, mem_unitSteps,
    Adjacent]
  simp only [length_displacement_coordsOf, true_and]

theorem mem_neighborsOf_causal (hlen : s.len < Word.half) {connectivity : Connectivity}
    {p q : Fin s.len} :
    q ∈ s.neighborsOf (s.neighborhood connectivity).causal (s.site p) ↔
      s.Adjacent connectivity p q ∧ q < p := by
  rw [← mem_neighborsOf_full hlen, mem_neighborsOf hlen (fun _ => isStep_of_mem_full),
    mem_neighborsOf hlen (fun _ h => isStep_of_mem_full (mem_causal_iff.mp h).1)]
  constructor
  · intro hexists
    obtain ⟨offset, hmem, hmove⟩ := hexists
    obtain ⟨hfull, hcausal⟩ := mem_causal_iff.mp hmem
    exact ⟨⟨offset, hfull, hmove⟩, (precedesInRasterOrder_iff hmove).mp hcausal⟩
  · intro hexists
    obtain ⟨⟨offset, hfull, hmove⟩, hlt⟩ := hexists
    exact ⟨offset, mem_causal_iff.mpr ⟨hfull, (precedesInRasterOrder_iff hmove).mpr hlt⟩, hmove⟩

theorem mem_neighborsOf_anticausal (hlen : s.len < Word.half) {connectivity : Connectivity}
    {p q : Fin s.len} :
    q ∈ s.neighborsOf (s.neighborhood connectivity).anticausal (s.site p) ↔
      s.Adjacent connectivity p q ∧ p < q := by
  rw [mem_neighborsOf hlen (fun _ h => isStep_of_mem_full (mem_anticausal_iff.mp h).1)]
  constructor
  · intro hexists
    obtain ⟨offset, hmem, hmove⟩ := hexists
    obtain ⟨hfull, hanticausal⟩ := mem_anticausal_iff.mp hmem
    have hadj : s.Adjacent connectivity p q := by
      rw [← mem_neighborsOf_full hlen, mem_neighborsOf hlen (fun _ => isStep_of_mem_full)]
      exact ⟨offset, hfull, hmove⟩
    have hle : ¬ q < p := by
      rw [← precedesInRasterOrder_iff hmove, hanticausal]
      simp
    exact ⟨hadj, lt_of_le_of_ne (not_lt.mp hle) hadj.ne⟩
  · intro hexists
    obtain ⟨hadj, hlt⟩ := hexists
    rw [← mem_neighborsOf_full hlen, mem_neighborsOf hlen (fun _ => isStep_of_mem_full)] at hadj
    obtain ⟨offset, hfull, hmove⟩ := hadj
    have hanticausal : offset.precedesInRasterOrder = false := by
      rw [← Bool.not_eq_true, precedesInRasterOrder_iff hmove]
      exact not_lt.mpr hlt.le
    exact ⟨offset, mem_anticausal_iff.mpr ⟨hfull, hanticausal⟩, hmove⟩

end Shape

end Morphology
