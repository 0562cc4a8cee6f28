import Morphology.Proofs.Binary.Arithmetic
import Morphology.Proofs.CheckLog.Runs

/-! In a run that passes, the values of each comparison agree, or one of them or the bound is NaN: a
comparison fails only if the distance is above the bound, and NaN is neither above nor below. -/

namespace Morphology

theorem Pixel.lt_eq_false_iff {α : Type} [Pixel α] {a b : α} (ha : Ordered a) (hb : Ordered b) :
    lt a b = false ↔ le b a = true := by
  obtain ⟨x, hx⟩ := Option.isSome_iff_exists.mp ha
  obtain ⟨y, hy⟩ := Option.isSome_iff_exists.mp hb
  rw [lt_eq_decide hx hy, le_eq_decide hy hx, decide_eq_false_iff_not, decide_eq_true_iff,
    Int.not_lt]

namespace Binary

variable {f : BinaryFormat} {expected actual delta : Binary f}

/-- The two are equal, or no further apart than `delta`. -/
def Agree (expected actual delta : Binary f) : Prop :=
  Pixel.eq expected actual = true ∨ Pixel.le (sub expected actual).abs delta = true

/-- The two are not equal, and one of the three is no number. -/
def Undecided (expected actual delta : Binary f) : Prop :=
  Pixel.eq expected actual = false ∧ (expected = nan ∨ actual = nan ∨ delta = nan)

theorem abs_eq_nan_iff {a : Binary f} : a.abs = nan ↔ a = nan := by
  cases a <;> simp [abs]

theorem eq_of_sub_eq_nan (h : sub expected actual = nan) (he : expected ≠ nan)
    (ha : actual ≠ nan) : Pixel.eq expected actual = true := by
  cases expected with
  | nan => exact absurd rfl he
  | number s m =>
      cases actual with
      | nan => exact absurd rfl ha
      | number t n =>
          obtain ⟨hm, hn, hsigns⟩ := add_eq_nan_iff.mp h
          have hst : s = t := by simpa using hsigns
          rw [Pixel.eq_eq_decide (rank_number s m) (rank_number t n), hst, hm, hn]
          exact decide_eq_true rfl

theorem ordered_distance (he : expected ≠ nan) (ha : actual ≠ nan)
    (hne : Pixel.eq expected actual = false) : Pixel.Ordered (sub expected actual).abs := by
  rw [ordered_iff, ne_eq, abs_eq_nan_iff]
  intro h
  rw [eq_of_sub_eq_nan h he ha] at hne
  cases hne

/-- A distance not above `delta` is one at most `delta`, as long as all three are numbers. -/
theorem agree_or_undecided (h : Pixel.lt delta (sub expected actual).abs = false) :
    Agree expected actual delta ∨ Undecided expected actual delta := by
  by_cases heq : Pixel.eq expected actual = true
  · exact .inl (.inl heq)
  · have hne : Pixel.eq expected actual = false := Bool.not_eq_true _ ▸ heq
    by_cases hnan : expected = nan ∨ actual = nan ∨ delta = nan
    · exact .inr ⟨hne, hnan⟩
    · simp only [not_or] at hnan
      obtain ⟨he, ha, hd⟩ := hnan
      have hdistance := ordered_distance he ha hne
      exact .inl (.inr ((Pixel.lt_eq_false_iff (ordered_iff.mpr hd) hdistance).mp h))

theorem ordered_of_ordered_distance (h : Pixel.Ordered (sub expected actual).abs) :
    expected ≠ nan ∧ actual ≠ nan := by
  rw [ordered_iff, ne_eq, abs_eq_nan_iff] at h
  refine ⟨?_, ?_⟩
  · rintro rfl
    exact h rfl
  · rintro rfl
    apply h
    cases expected <;> rfl

theorem Undecided.not_ordered (h : Undecided expected actual delta) :
    ¬ (Pixel.Ordered delta ∧ Pixel.Ordered (sub expected actual).abs) := by
  rintro ⟨hdelta, hdistance⟩
  obtain ⟨he, ha⟩ := ordered_of_ordered_distance hdistance
  rcases h.2 with hnan | hnan | hnan
  · exact he hnan
  · exact ha hnan
  · exact ordered_iff.mp hdelta hnan

/-- A comparison passes without agreement exactly if it is undecided. -/
theorem close_and_not_agree_iff :
    Pixel.lt delta (sub expected actual).abs = false ∧ ¬ Agree expected actual delta ↔
      Undecided expected actual delta := by
  constructor
  · rintro ⟨hclose, hnot⟩
    exact (agree_or_undecided hclose).resolve_left hnot
  · intro h
    refine ⟨Bool.eq_false_iff.mpr fun hlt => h.not_ordered (Pixel.ordered_of_lt hlt), ?_⟩
    rintro (heq | hle)
    · rw [h.1] at heq
      cases heq
    · exact h.not_ordered (Pixel.ordered_of_le hle).symm

end Binary

namespace CheckLog

theorem Findings.finds_none {number : Nat} {checks : List Check}
    {findings : List (Option CheckError)} (h : Findings number checks findings)
    (hnone : findings.reduceOption = []) {check : Check} (hmem : check ∈ checks) :
    ∃ number, check.Finds number none := by
  induction h with
  | nil => cases hmem
  | @cons number first checks finding findings hfinding _ ih =>
      cases finding with
      | some failure => simp at hnone
      | none =>
          rcases List.mem_cons.mp hmem with rfl | hlater
          · exact ⟨number, hfinding⟩
          · exact ih (by simpa using hnone) hlater

theorem cleanup_of_result_eq_ok {log : CheckLog} (h : log.result = .ok ()) :
    log.cleanup = true := by
  by_contra hnot
  rw [result, if_neg hnot] at h
  cases h

theorem finds_none_of_cleanup {name : String} {mode : CheckMode} {checks : List Check}
    (h : ((new name mode).run checks).2.cleanup = true) {check : Check} (hmem : check ∈ checks) :
    ∃ number, check.Finds number none := by
  obtain ⟨findings, hfindings, hrun⟩ := (new name mode).run_findings checks
  rw [hrun, cleanup, isSuccess, List.isEmpty_iff] at h
  exact hfindings.finds_none h hmem

theorem compareValues_iff {log : CheckLog} {expected actual delta : Binary .double} :
    (log.compareValues expected actual delta).1 = true ↔
      Pixel.lt delta (Binary.sub expected actual).abs = false := by
  cases h : Pixel.lt delta (Binary.sub expected actual).abs with
  | false => simp [compareValues, h, record]
  | true => simp [compareValues, h, record]

/-- In a run that passes, the values compared agree or nothing decides between them, for want of
a number. Such a call never fails, and no other passes without agreement. -/
theorem agree_or_undecided_of_passed {name : String} {mode : CheckMode} {checks : List Check}
    (hpassed : ((new name mode).run checks).2.result = .ok () ∨
      ((new name mode).run checks).2.cleanup = true) :
    (∀ expected actual delta, Check.values expected actual delta ∈ checks →
      Binary.Agree expected actual delta ∨ Binary.Undecided expected actual delta) ∧
      ∀ (log : CheckLog) (expected actual delta : Binary .double),
        (log.compareValues expected actual delta).1 = true ∧
            ¬ Binary.Agree expected actual delta ↔
          Binary.Undecided expected actual delta := by
  have hcleanup : ((new name mode).run checks).2.cleanup = true :=
    hpassed.elim cleanup_of_result_eq_ok id
  refine ⟨?_, ?_⟩
  · intro expected actual delta hmem
    obtain ⟨number, hfinds⟩ := finds_none_of_cleanup hcleanup hmem
    cases hfinds with
    | close h => exact Binary.agree_or_undecided h
  · intro log expected actual delta
    rw [compareValues_iff]
    exact Binary.close_and_not_agree_iff

/-- Comparisons of 0 with 0 and of NaN with 0, both within 0, and a property that holds. -/
def hollow : List Check :=
  [.values .zero .zero .zero, .values .nan .zero .zero, .property true "zero"]

theorem agree_or_undecided_of_hollow_passed :
    ((new "hollow" .compare).run hollow).2.result = .ok () ∧
      (Binary.Agree (.nan : Binary .double) .zero .zero ∨
        Binary.Undecided (.nan : Binary .double) .zero .zero) := by
  have hpassed : ((new "hollow" .compare).run hollow).2.result = .ok () := rfl
  refine ⟨hpassed, ?_⟩
  exact (agree_or_undecided_of_passed (.inl hpassed)).1 _ _ _ (by simp [hollow])

/-- The comparison of NaN with 0 within 0 is not counted as a failure, so the run succeeds, although
NaN does not agree with 0. -/
theorem hollow_passed_not_agree :
    ((new "hollow" .compare).run hollow).2.result = .ok () ∧
      ((new "hollow" .compare).run hollow).2.cleanup = true ∧
      .values .nan .zero .zero ∈ hollow ∧
      ¬ Binary.Agree (.nan : Binary .double) .zero .zero := by
  refine ⟨rfl, rfl, by simp [hollow], ?_⟩
  rintro (h | h)
  · cases h
  · cases h

end CheckLog

end Morphology
