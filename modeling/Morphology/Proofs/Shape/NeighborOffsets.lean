import Morphology.Proofs.Shape.UnitSteps

/-! The offsets of neighbors are what the odometer shows and the connectivity keeps. Read backwards
they are the opposite offsets, so the causal ones are one half of them and the anticausal ones the
other, each the mirror image of the other. -/

namespace Morphology

/-- A list in which nothing before an element with a property lacks it begins with all elements that
have it. -/
theorem filter_append_filter_not_of_pairwise {α : Type} {p : α → Bool} {l : List α}
    (h : l.Pairwise fun a b => p b = true → p a = true) :
    l.filter p ++ l.filter (fun a => !p a) = l := by
  induction l with
  | nil => rfl
  | cons a l ih =>
      rw [List.pairwise_cons] at h
      cases ha : p a with
      | true =>
          have hrest := ih h.2
          simp [ha, hrest]
      | false =>
          have hnone : ∀ b ∈ a :: l, p b = false := by
            intro b hb
            rcases List.mem_cons.mp hb with rfl | hb
            · exact ha
            · exact Bool.eq_false_iff.mpr fun hp => Bool.eq_false_iff.mp ha (h.1 b hb hp)
          rw [List.filter_eq_nil_iff.mpr fun b hb => by simp [hnone b hb], List.nil_append,
            List.filter_eq_self.mpr fun b hb => by simp [hnone b hb]]

/-- In a list that a change of its elements reverses, a property that the change turns round holds
of the mirror images of the elements that lack it. -/
theorem filter_eq_reverse_map_filter_not {α : Type} {p : α → Bool} {f : α → α} {l : List α}
    (hmirror : l.reverse = l.map f) (hturned : ∀ a ∈ l, p (f a) = !p a) :
    l.filter p = ((l.filter fun a => !p a).map f).reverse := by
  have hfilter : (l.filter fun a => !p a) = l.filter (p ∘ f) :=
    List.filter_congr fun a ha => (hturned a ha).symm
  rw [hfilter, ← List.filter_map, ← hmirror, List.filter_reverse, List.reverse_reverse]

/-- The offset that leads back. -/
def Offset.opposite (offset : Offset) : Offset :=
  ⟨offset.delta.map (- ·), -offset.linear⟩

theorem Offset.precedes_cons (d : Int) (ds : List Int) (linear : Int) :
    Offset.precedesInRasterOrder ⟨d :: ds, linear⟩ = true ↔
      d < 0 ∨ d = 0 ∧ Offset.precedesInRasterOrder ⟨ds, linear⟩ = true := by
  by_cases hd : d = 0 <;> simp [precedesInRasterOrder, hd]

theorem Offset.precedes_opposite {offset : Offset} (h : ∃ d ∈ offset.delta, d ≠ 0) :
    offset.opposite.precedesInRasterOrder = !offset.precedesInRasterOrder := by
  have hfirst : (offset.delta.find? (· ≠ 0)).isSome := by
    simpa [List.find?_isSome] using h
  obtain ⟨d, hd⟩ := Option.isSome_iff_exists.mp hfirst
  have hne : d ≠ 0 := by simpa using List.find?_some hd
  have hopposite : (offset.delta.map (- ·)).find? (· ≠ 0) = some (-d) := by
    have hsame : ((fun d : Int => decide (d ≠ 0)) ∘ fun d => -d) = fun d => decide (d ≠ 0) := by
      funext d
      simp
    rw [List.find?_map, hsame, hd, Option.map_some]
  simp only [precedesInRasterOrder, opposite, hopposite, hd, Option.any_some]
  rw [← decide_not, decide_eq_decide]
  omega

/-- What comes before a causal step is causal. -/
theorem Offset.precedes_of_lt {first second : List Int} (hlength : first.length = second.length)
    (hlt : first < second) (h : (Offset.ofDelta second).precedesInRasterOrder = true) :
    (Offset.ofDelta first).precedesInRasterOrder = true := by
  induction first generalizing second with
  | nil => simp [List.eq_nil_of_length_eq_zero hlength.symm] at hlt
  | cons x xs ih =>
      cases second with
      | nil => simp at hlength
      | cons y ys =>
          rw [ofDelta, precedes_cons] at h ⊢
          rcases List.cons_lt_cons_iff.mp hlt with hxy | ⟨rfl, hrest⟩
          · omega
          · exact h.imp_right fun hzero => ⟨hzero.1, ih (by simpa using hlength) hrest hzero.2⟩

/-! ## The offsets of neighbors -/

variable {n : Nat} {connectivity : Connectivity}

theorem neighborOffsets_eq (n : Nat) (connectivity : Connectivity) :
    neighborOffsets n connectivity =
      ((unitSteps n).filter connectivity.keeps).map Offset.ofDelta := rfl

theorem map_delta_neighborOffsets (n : Nat) (connectivity : Connectivity) :
    (neighborOffsets n connectivity).map Offset.delta =
      (unitSteps n).filter connectivity.keeps := by
  rw [neighborOffsets_eq, List.map_map]
  exact List.map_id _

theorem mem_neighborOffsets {offset : Offset} :
    offset ∈ neighborOffsets n connectivity ↔
      offset.linear = 0 ∧ offset.delta ∈ unitSteps n ∧ connectivity.keeps offset.delta = true := by
  rw [neighborOffsets_eq, List.mem_map]
  constructor
  · rintro ⟨delta, hdelta, rfl⟩
    exact ⟨rfl, List.mem_filter.mp hdelta⟩
  · rintro ⟨hlinear, hdelta⟩
    exact ⟨offset.delta, List.mem_filter.mpr hdelta, by rw [Offset.ofDelta, ← hlinear]⟩

theorem mem_neighborOffsets_iff {offset : Offset} :
    offset ∈ neighborOffsets n connectivity ↔
      offset.linear = 0 ∧ offset.delta.length = n ∧
        (∀ d ∈ offset.delta, d = -1 ∨ d = 0 ∨ d = 1) ∧
        (connectivity = .face → offset.delta.countP (· ≠ 0) = 1) ∧
        (connectivity = .full → ∃ d ∈ offset.delta, d ≠ 0) := by
  have hunit (d : Int) : d.natAbs ≤ 1 ↔ d = -1 ∨ d = 0 ∨ d = 1 := by omega
  rw [mem_neighborOffsets, mem_unitSteps, and_assoc]
  simp only [hunit]
  cases connectivity <;> simp [Connectivity.keeps, List.countP_pos_iff]

theorem pairwise_lt_neighborOffsets (n : Nat) (connectivity : Connectivity) :
    ((neighborOffsets n connectivity).map Offset.delta).Pairwise (· < ·) := by
  rw [map_delta_neighborOffsets]
  exact (pairwise_lt_unitSteps n).filter _

theorem reverse_neighborOffsets (n : Nat) (connectivity : Connectivity) :
    (neighborOffsets n connectivity).reverse =
      (neighborOffsets n connectivity).map Offset.opposite := by
  have hkeeps : (connectivity.keeps ∘ fun delta => delta.map (- ·)) = connectivity.keeps :=
    funext fun delta => Shape.keeps_map_neg connectivity delta
  rw [neighborOffsets_eq, ← List.map_reverse, ← List.filter_reverse, reverse_unitSteps,
    List.filter_map, hkeeps, List.map_map, List.map_map]
  rfl

theorem partition_forward (offsets : List Offset) :
    partition offsets .forward = (offsets.filter Offset.precedesInRasterOrder,
      offsets.filter fun offset => !offset.precedesInRasterOrder) :=
  List.partition_eq_filter_filter

theorem partition_forward_append (n : Nat) (connectivity : Connectivity) :
    (partition (neighborOffsets n connectivity) .forward).1 ++
        (partition (neighborOffsets n connectivity) .forward).2 =
      neighborOffsets n connectivity := by
  have hsorted := List.pairwise_map.mp (pairwise_lt_neighborOffsets n connectivity)
  rw [partition_forward]
  apply filter_append_filter_not_of_pairwise
  apply hsorted.imp_of_mem
  intro first second hfirst hsecond hlt
  obtain ⟨_, hfirstStep, _⟩ := mem_neighborOffsets.mp hfirst
  obtain ⟨_, hsecondStep, _⟩ := mem_neighborOffsets.mp hsecond
  have hlength : first.delta.length = second.delta.length :=
    (mem_unitSteps.mp hfirstStep).1.trans (mem_unitSteps.mp hsecondStep).1.symm
  exact Offset.precedes_of_lt hlength hlt

theorem partition_forward_mirror (n : Nat) (connectivity : Connectivity) :
    (partition (neighborOffsets n connectivity) .forward).1 =
      ((partition (neighborOffsets n connectivity) .forward).2.map Offset.opposite).reverse := by
  rw [partition_forward]
  apply filter_eq_reverse_map_filter_not (reverse_neighborOffsets n connectivity)
  intro offset hoffset
  obtain ⟨_, _, hkeeps⟩ := mem_neighborOffsets.mp hoffset
  exact Offset.precedes_opposite (Shape.exists_ne_zero_of_keeps hkeeps)

theorem length_neighborOffsets_face (n : Nat) : (neighborOffsets n .face).length = 2 * n := by
  have hkeeps : Connectivity.face.keeps = fun delta => decide (delta.countP (· ≠ 0) = 1) := rfl
  rw [neighborOffsets_eq, List.length_map, ← List.countP_eq_length_filter, hkeeps,
    countP_unitSteps]
  simp

theorem length_neighborOffsets_full (n : Nat) : (neighborOffsets n .full).length = 3 ^ n - 1 := by
  have hkept : (neighborOffsets n .full).length =
      (unitSteps n).countP fun delta => ¬ decide (delta.countP (· ≠ 0) = 0) = true := by
    rw [neighborOffsets_eq, List.length_map, ← List.countP_eq_length_filter]
    congr 1
    funext delta
    simp [Connectivity.keeps, Nat.pos_iff_ne_zero]
  have hall := (unitSteps n).length_eq_countP_add_countP
    (fun delta => delta.countP (· ≠ 0) = 0)
  rw [length_unitSteps, countP_unitSteps, ← hkept, Nat.choose_zero_right] at hall
  omega

/-- As long as words hold the power, they hold the number of neighbors. -/
theorem length_neighborOffsets (h : 3 ^ n < Word.modulus) (connectivity : Connectivity) :
    (neighborOffsets n connectivity).length = connectivity.neighborCount n := by
  have hsmall : n < 41 := by
    by_contra hlarge
    have hpow : 3 ^ 41 ≤ 3 ^ n := Nat.pow_le_pow_right (by decide) (not_lt.mp hlarge)
    exact absurd (hpow.trans_lt h) (by decide)
  cases connectivity with
  | face =>
      have hlt : 2 * n < Word.modulus := by
        rw [Word.modulus]
        omega
      rw [length_neighborOffsets_face, Connectivity.neighborCount, Nat.mod_eq_of_lt hlt]
  | full =>
      have hexponent : n % (1 <<< 32) = n := Nat.mod_eq_of_lt (hsmall.trans (by decide))
      rw [length_neighborOffsets_full, Connectivity.neighborCount, Word.power_eq, hexponent,
        Nat.pow_eq, Nat.mod_eq_of_lt h]

/-! ## The enumeration -/

/-- For every number of axes: an odometer over the unit steps comes to an end, and of what it shows
the offsets are the steps that change exactly one coordinate, or in full any; they are sorted, none
occurs twice, and as long as words hold the power there are as many as the neighbor count says. Read
backwards they are the opposite offsets. So the causal ones are the first half and the mirror image
of the second, and for a backward scan the halves are exchanged. -/
theorem neighborOffsets_complete_sorted_mirrored (n : Nat) (connectivity : Connectivity) :
    let offsets := neighborOffsets n connectivity
    let halves := partition offsets .forward
    (∃ steps, Turns (List.replicate n (-1)) steps) ∧
      (∀ steps, Turns (List.replicate n (-1)) steps →
        offsets = (steps.filter connectivity.keeps).map Offset.ofDelta) ∧
      (∀ offset, offset ∈ offsets ↔ offset.linear = 0 ∧ offset.delta.length = n ∧
        (∀ d ∈ offset.delta, d = -1 ∨ d = 0 ∨ d = 1) ∧
        (connectivity = .face → offset.delta.countP (· ≠ 0) = 1) ∧
        (connectivity = .full → ∃ d ∈ offset.delta, d ≠ 0)) ∧
      (offsets.map Offset.delta).Pairwise (· < ·) ∧ offsets.Nodup ∧
      (3 ^ n < Word.modulus → offsets.length = connectivity.neighborCount n) ∧
      offsets.reverse = offsets.map Offset.opposite ∧
      halves.1 ++ halves.2 = offsets ∧ halves.1.length = halves.2.length ∧
      halves.1 = (halves.2.map Offset.opposite).reverse ∧
      partition offsets .backward = (halves.2, halves.1) := by
  intro offsets halves
  have hsorted := pairwise_lt_neighborOffsets n connectivity
  have hmirror := partition_forward_mirror n connectivity
  refine ⟨⟨unitSteps n, turns_unitSteps n⟩, ?_, fun _ => mem_neighborOffsets_iff, hsorted, ?_,
    fun h => length_neighborOffsets h connectivity, reverse_neighborOffsets n connectivity,
    partition_forward_append n connectivity, ?_, hmirror, rfl⟩
  · intro steps hsteps
    rw [turns_iff.mp hsteps]
    rfl
  · exact (hsorted.imp ne_of_lt).of_map Offset.delta fun _ _ h => mt (congrArg Offset.delta) h
  · have hlength := congrArg List.length hmirror
    rwa [List.length_reverse, List.length_map] at hlength

theorem neighborOffsets_three_complete_sorted_mirrored :
    3 ^ 3 < Word.modulus ∧ (neighborOffsets 3 .full).length = Connectivity.neighborCount .full 3 ∧
      Connectivity.neighborCount .full 3 = 26 := by
  have hcount : 3 ^ 3 < Word.modulus := by decide
  obtain ⟨_, _, _, _, _, hlength, _⟩ := neighborOffsets_complete_sorted_mirrored 3 .full
  exact ⟨hcount, hlength hcount, by decide⟩

end Morphology
