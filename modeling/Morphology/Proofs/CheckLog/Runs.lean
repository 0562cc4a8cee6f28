import Mathlib.Data.List.ReduceOption
import Morphology.CheckLog
import Morphology.Proofs.Grid.Access
import Morphology.Proofs.Grid.Boundary

/-! Runs of checks on one log. Every call is numbered, finds one failure or none, and the log keeps
what was found, in the order of the calls. -/

namespace Morphology

/-- A call on a log of checks. -/
inductive Check : Type 1 where
  | values (expected actual delta : Binary .double)
  | grids {α : Type} [Pixel α] (expected actual : Grid α)
  | property (ok : Bool) (what : String)

namespace CheckLog

def perform (log : CheckLog) : Check → Bool × CheckLog
  | .values expected actual delta => log.compareValues expected actual delta
  | @Check.grids _ _ expected actual => log.compareGrids expected actual
  | .property ok what => log.check ok what

/-- The answers of some calls, one after the other, and the log after the last. -/
def run (log : CheckLog) : List Check → List Bool × CheckLog
  | [] => ([], log)
  | check :: checks =>
      let rest := (log.perform check).2.run checks
      ((log.perform check).1 :: rest.1, rest.2)

end CheckLog

/-! ## What a call finds -/

namespace Grid

variable {α : Type} [Pixel α]

/-- Equal extents and, position by position, values that compare equal. -/
structure Matching (expected actual : Grid α) : Prop where
  dims_eq : expected.dims = actual.dims
  values_eq : ∀ coords x y, expected.get? coords = some x → actual.get? coords = some y →
    Pixel.eq x y = true

/-- In lexicographic order, these are the first coordinates with values that differ. -/
structure DiffersFirst (expected actual : Grid α) (coords : List Nat) (x y : α) : Prop where
  left : expected.get? coords = some x
  right : actual.get? coords = some y
  differ : Pixel.eq x y = false
  before : ∀ earlier < coords, ∀ v w, expected.get? earlier = some v →
    actual.get? earlier = some w → Pixel.eq v w = true

variable {s : Shape} {small : s.len < limit} {left right : Vector α s.len}

theorem matching_iff :
    Matching ⟨s, small, left⟩ ⟨s, small, right⟩ ↔ SameValues left right := by
  constructor
  · intro h p
    exact h.values_eq _ _ _ (get?_coordsOf ⟨s, small, left⟩ p) (get?_coordsOf ⟨s, small, right⟩ p)
  · intro h
    refine ⟨rfl, ?_⟩
    intro coords x y hx hy
    obtain ⟨p, rfl, rfl⟩ := get?_eq_some_iff.mp hx
    obtain ⟨q, hq, rfl⟩ := get?_eq_some_iff.mp hy
    obtain rfl := Shape.eq_of_coordsOf_eq hq
    exact h q

theorem differsFirst_iff {coords : List Nat} {x y : α} :
    DiffersFirst ⟨s, small, left⟩ ⟨s, small, right⟩ coords x y ↔
      ∃ p : Fin s.len, s.coordsOf p = coords ∧ left.get p = x ∧ right.get p = y ∧
        Pixel.eq (left.get p) (right.get p) = false ∧
        ∀ q < p, Pixel.eq (left.get q) (right.get q) = true := by
  constructor
  · rintro ⟨hx, hy, hdiffer, hbefore⟩
    obtain ⟨p, rfl, rfl⟩ := get?_eq_some_iff.mp hx
    obtain ⟨q, hq, rfl⟩ := get?_eq_some_iff.mp hy
    obtain rfl := Shape.eq_of_coordsOf_eq hq
    refine ⟨q, rfl, rfl, rfl, hdiffer, ?_⟩
    intro r hr
    exact hbefore _ (Shape.coordsOf_lt_iff.mpr hr) _ _ (get?_coordsOf ⟨s, small, left⟩ r)
      (get?_coordsOf ⟨s, small, right⟩ r)
  · rintro ⟨p, rfl, rfl, rfl, hdiffer, hbefore⟩
    refine ⟨get?_coordsOf ⟨s, small, left⟩ p, get?_coordsOf ⟨s, small, right⟩ p, hdiffer, ?_⟩
    intro earlier hlt v w hv hw
    obtain ⟨q, rfl, rfl⟩ := get?_eq_some_iff.mp hv
    obtain ⟨r, hr, rfl⟩ := get?_eq_some_iff.mp hw
    obtain rfl := Shape.eq_of_coordsOf_eq hr
    exact hbefore r (Shape.coordsOf_lt_iff.mp hlt)

end Grid

namespace CheckLog

section Differences

variable {α : Type} [Pixel α] {s : Shape} {small : s.len < Grid.limit} {left right : Vector α s.len}

theorem firstDifference?_eq :
    firstDifference? ⟨s, small, left⟩ ⟨s, small, right⟩ =
      (List.finRange s.len).findIdx? fun p => !Pixel.eq (left.get p) (right.get p) := by
  have hpairs : left.toList.zip right.toList =
      (List.finRange s.len).map fun p => (left.get p, right.get p) := by
    apply List.ext_getElem
    · simp
    · intro i _ _
      simp [Vector.get]
  rw [firstDifference?, hpairs, List.findIdx?_map]
  rfl

theorem firstDifference?_eq_none_iff :
    firstDifference? ⟨s, small, left⟩ ⟨s, small, right⟩ = none ↔ SameValues left right := by
  simp [firstDifference?_eq, List.findIdx?_eq_none_iff, SameValues]

theorem firstDifference?_eq_some_iff {position : Nat} :
    firstDifference? ⟨s, small, left⟩ ⟨s, small, right⟩ = some position ↔
      ∃ p : Fin s.len, p = position ∧ Pixel.eq (left.get p) (right.get p) = false ∧
        ∀ q < p, Pixel.eq (left.get q) (right.get q) = true := by
  rw [firstDifference?_eq, List.findIdx?_eq_some_iff_getElem]
  constructor
  · rintro ⟨hlength, hdiffer, hbefore⟩
    have hlt : position < s.len := by simpa using hlength
    refine ⟨⟨position, hlt⟩, rfl, by simpa using hdiffer, ?_⟩
    intro q hq
    simpa using hbefore q hq
  · rintro ⟨p, rfl, hdiffer, hbefore⟩
    refine ⟨by simp, by simpa using hdiffer, ?_⟩
    intro q hq
    simpa using hbefore ⟨q, hq.trans p.isLt⟩ hq

theorem compareGrids_eq (log : CheckLog) :
    log.compareGrids ⟨s, small, left⟩ ⟨s, small, right⟩ =
      log.record ((firstDifference? ⟨s, small, left⟩ ⟨s, small, right⟩).map fun position index =>
        .gridMismatch index (s.coordsOf position)
          (((Grid.getLinear? ⟨s, small, left⟩ position).map Pixel.text).getD "")
          (((Grid.getLinear? ⟨s, small, right⟩ position).map Pixel.text).getD "")) := by
  simp [compareGrids, Grid.sameShape]

end Differences

def noted (log : CheckLog) (finding : Option CheckError) : CheckLog :=
  { log with index := log.index + 1, failures := log.failures ++ finding.toList }

theorem record_none (log : CheckLog) : log.record none = (true, log.noted none) := by
  simp [record, noted]

theorem record_some (log : CheckLog) (failure : Nat → CheckError) :
    log.record (some failure) = (false, log.noted (some (failure (log.index + 1)))) := rfl

theorem noted_injective {log : CheckLog} {a b : Option CheckError} (h : log.noted a = log.noted b) :
    a = b := by
  have hfailures : log.failures ++ a.toList = log.failures ++ b.toList := congrArg failures h
  cases a <;> cases b <;> simp_all

end CheckLog

namespace Check

/-- What the call of a number finds: its failure, or none. -/
inductive Finds (number : Nat) : Check → Option CheckError → Prop where
  | close {expected actual delta : Binary .double}
      (h : Pixel.lt delta (Binary.sub expected actual).abs = false) :
      Finds number (.values expected actual delta) none
  | apart {expected actual delta : Binary .double}
      (h : Pixel.lt delta (Binary.sub expected actual).abs = true) :
      Finds number (.values expected actual delta)
        (some (.valueMismatch number expected actual delta))
  | matching {α : Type} [Pixel α] {expected actual : Grid α} (h : expected.Matching actual) :
      Finds number (.grids expected actual) none
  | dimensions {α : Type} [Pixel α] {expected actual : Grid α}
      (h : expected.dims ≠ actual.dims) :
      Finds number (.grids expected actual)
        (some (.dimensionMismatch number expected.dims actual.dims))
  | elements {α : Type} [Pixel α] {expected actual : Grid α} {coords : List Nat} {x y : α}
      (hdims : expected.dims = actual.dims) (h : expected.DiffersFirst actual coords x y) :
      Finds number (.grids expected actual)
        (some (.gridMismatch number coords (Pixel.text x) (Pixel.text y)))
  | holds (what : String) : Finds number (.property true what) none
  | fails (what : String) :
      Finds number (.property false what) (some (.checkFailed number what))

theorem exists_finds (number : Nat) (check : Check) : ∃ finding, check.Finds number finding := by
  cases check with
  | values expected actual delta =>
      cases h : Pixel.lt delta (Binary.sub expected actual).abs with
      | false => exact ⟨_, .close h⟩
      | true => exact ⟨_, .apart h⟩
  | grids expected actual =>
      by_cases hdims : expected.dims = actual.dims
      · obtain ⟨s, small, left, right, rfl, rfl⟩ := Grid.exists_eq_of_dims_eq hdims
        cases hfirst : CheckLog.firstDifference? ⟨s, small, left⟩ ⟨s, small, right⟩ with
        | none =>
            exact ⟨_, .matching (Grid.matching_iff.mpr
              (CheckLog.firstDifference?_eq_none_iff.mp hfirst))⟩
        | some position =>
            obtain ⟨p, _, hdiffer⟩ := CheckLog.firstDifference?_eq_some_iff.mp hfirst
            exact ⟨_, .elements hdims (Grid.differsFirst_iff.mpr ⟨p, rfl, rfl, rfl, hdiffer⟩)⟩
      · exact ⟨_, .dimensions hdims⟩
  | property ok what =>
      cases ok with
      | false => exact ⟨_, .fails what⟩
      | true => exact ⟨_, .holds what⟩

theorem Finds.perform_eq {log : CheckLog} {check : Check} {finding : Option CheckError}
    (h : check.Finds (log.index + 1) finding) :
    log.perform check = (finding.isNone, log.noted finding) := by
  cases h with
  | close h =>
      rw [CheckLog.perform, CheckLog.compareValues, h]
      exact CheckLog.record_none log
  | apart h =>
      rw [CheckLog.perform, CheckLog.compareValues, h]
      exact CheckLog.record_some log _
  | @matching α _ expected actual h =>
      obtain ⟨s, small, left, right, rfl, rfl⟩ := Grid.exists_eq_of_dims_eq h.dims_eq
      have hnone := (@CheckLog.firstDifference?_eq_none_iff _ _ s small left right).mpr
        (Grid.matching_iff.mp h)
      rw [CheckLog.perform, CheckLog.compareGrids_eq, hnone]
      exact CheckLog.record_none log
  | @dimensions α _ expected actual h =>
      have hshape : expected.sameShape actual = false :=
        decide_eq_false fun hsame => h (congrArg Shape.dims hsame)
      rw [CheckLog.perform, CheckLog.compareGrids, hshape]
      exact CheckLog.record_some log _
  | @elements α _ expected actual coords x y hdims h =>
      obtain ⟨s, small, left, right, rfl, rfl⟩ := Grid.exists_eq_of_dims_eq hdims
      obtain ⟨p, rfl, rfl, rfl, hdiffer⟩ := Grid.differsFirst_iff.mp h
      have hfirst := (@CheckLog.firstDifference?_eq_some_iff _ _ s small left right _).mpr
        ⟨p, rfl, hdiffer⟩
      have hleft := Grid.getLinear?_eq_some_get ⟨s, small, left⟩ p
      have hright := Grid.getLinear?_eq_some_get ⟨s, small, right⟩ p
      rw [CheckLog.perform, CheckLog.compareGrids_eq, hfirst, Option.map_some,
        CheckLog.record_some, hleft, hright]
      rfl
  | holds what => exact CheckLog.record_none log
  | fails what => exact CheckLog.record_some log (.checkFailed · what)

theorem perform_iff {log : CheckLog} {check : Check} {finding : Option CheckError} :
    log.perform check = (finding.isNone, log.noted finding) ↔
      check.Finds (log.index + 1) finding := by
  refine ⟨?_, Finds.perform_eq⟩
  intro h
  obtain ⟨found, hfound⟩ := check.exists_finds (log.index + 1)
  have hnoted := congrArg Prod.snd (hfound.perform_eq.symm.trans h)
  rwa [← CheckLog.noted_injective hnoted]

end Check

/-! ## Runs -/

/-- The number of the call that failed. -/
def CheckError.number? : CheckError → Option Nat
  | valueMismatch index _ _ _ => some index
  | dimensionMismatch index _ _ => some index
  | gridMismatch index _ _ _ => some index
  | checkFailed index _ => some index
  | failed _ _ => none

theorem Check.Finds.number?_eq {number : Nat} {check : Check} {failure : CheckError}
    (h : check.Finds number (some failure)) : failure.number? = some number := by
  cases h <;> rfl

namespace CheckLog

/-- Calls are numbered one after the other, each with its finding. -/
inductive Findings : Nat → List Check → List (Option CheckError) → Prop where
  | nil (number : Nat) : Findings number [] []
  | cons {number : Nat} {check : Check} {checks : List Check} {finding : Option CheckError}
      {findings : List (Option CheckError)} :
      check.Finds number finding → Findings (number + 1) checks findings →
      Findings number (check :: checks) (finding :: findings)

/-- The numbers of the calls that answered no. -/
def refusedFrom (number : Nat) (answers : List Bool) : List Nat :=
  ((answers.zipIdx number).filter fun entry => !entry.1).map Prod.snd

/-- A run from any log counts its calls on and appends their failures. -/
theorem run_findings (log : CheckLog) (checks : List Check) :
    ∃ findings, Findings (log.index + 1) checks findings ∧
      log.run checks = (findings.map Option.isNone,
        { log with index := log.index + checks.length,
                   failures := log.failures ++ findings.reduceOption }) := by
  induction checks generalizing log with
  | nil => exact ⟨[], .nil _, by simp [run]⟩
  | cons check checks ih =>
      obtain ⟨finding, hfinding⟩ := check.exists_finds (log.index + 1)
      obtain ⟨findings, hfindings, hrun⟩ := ih (log.noted finding)
      refine ⟨finding :: findings, .cons hfinding hfindings, ?_⟩
      rw [run, hfinding.perform_eq, hrun]
      cases finding with
      | none => simp [noted, Nat.add_right_comm, Nat.add_assoc]
      | some failure => simp [noted, Nat.add_right_comm, Nat.add_assoc]

theorem Findings.numbers_eq {number : Nat} {checks : List Check}
    {findings : List (Option CheckError)} (h : Findings number checks findings) :
    findings.reduceOption.map CheckError.number? =
      (refusedFrom number (findings.map Option.isNone)).map some := by
  induction h with
  | nil => rfl
  | @cons number check checks finding findings hfinding _ ih =>
      cases finding with
      | none => simpa [refusedFrom] using ih
      | some failure => simpa [refusedFrom, hfinding.number?_eq] using ih

theorem length_reduceOption_eq (findings : List (Option CheckError)) :
    findings.reduceOption.length = (findings.map Option.isNone).count false := by
  induction findings with
  | nil => rfl
  | cons finding findings ih => cases finding <;> simp [ih]

/-- What a log tells about the calls made on it since it was new: all are counted, and those that
answered no have left their failures, in order and under their numbers. -/
structure RunSpec (name : String) (checks : List Check) (answers : List Bool) (log : CheckLog) :
    Prop where
  index_eq : log.index = checks.length
  findings : ∃ findings, Findings 1 checks findings ∧ answers = findings.map Option.isNone ∧
    log.failures = findings.reduceOption
  numbers_eq : log.failures.map CheckError.number? = (refusedFrom 1 answers).map some
  isSuccess_iff : log.isSuccess = true ↔ false ∉ answers
  cleanup_iff : log.cleanup = true ↔ false ∉ answers
  result_eq : log.result =
    if false ∈ answers then .error (.failed name (answers.count false)) else .ok ()

theorem run_spec (name : String) (mode : CheckMode) (checks : List Check) :
    RunSpec name checks ((new name mode).run checks).1 ((new name mode).run checks).2 := by
  obtain ⟨findings, hfindings, hrun⟩ := (new name mode).run_findings checks
  have hfailures : ((new name mode).run checks).2.failures = findings.reduceOption := by
    rw [hrun]
    rfl
  have hanswers : ((new name mode).run checks).1 = findings.map Option.isNone := by rw [hrun]
  have hcount := length_reduceOption_eq findings
  have hsuccess : ((new name mode).run checks).2.isSuccess = true ↔
      false ∉ ((new name mode).run checks).1 := by
    rw [isSuccess, hfailures, hanswers, List.isEmpty_iff_length_eq_zero, hcount,
      List.count_eq_zero]
  refine ⟨?_, ⟨findings, hfindings, hanswers, hfailures⟩, ?_, hsuccess, hsuccess, ?_⟩
  · rw [hrun]
    exact Nat.zero_add _
  · rw [hfailures, hanswers]
    exact hfindings.numbers_eq
  · have hname : ((new name mode).run checks).2.name = name := by
      rw [hrun]
      rfl
    rw [result, cleanup, hname, hfailures, hcount, ← hanswers]
    by_cases hrefused : false ∈ ((new name mode).run checks).1
    · rw [if_pos hrefused, if_neg fun h => hsuccess.mp h hrefused]
    · rw [if_neg hrefused, if_pos (hsuccess.mpr hrefused)]

theorem compareGrids_iff {α : Type} [Pixel α] {log : CheckLog} {expected actual : Grid α} :
    (log.compareGrids expected actual).1 = true ↔ expected.Matching actual := by
  constructor
  · intro h
    obtain ⟨finding, hfinding⟩ := (Check.grids expected actual).exists_finds (log.index + 1)
    have hnone : finding.isNone = true :=
      (congrArg Prod.fst hfinding.perform_eq).symm.trans h
    rw [Option.isNone_iff_eq_none] at hnone
    subst hnone
    cases hfinding with
    | matching h => exact h
  · intro h
    exact congrArg Prod.fst (Check.Finds.matching h).perform_eq

/-- A call answers whether it found nothing, and then the log is the one with its finding and no
other; two grids pass just if they match; and after any run of calls on a new log, the log accounts
for all of them. -/
theorem run_accounted :
    (∀ (log : CheckLog) (check : Check) (finding : Option CheckError),
      log.perform check = (finding.isNone, log.noted finding) ↔
        check.Finds (log.index + 1) finding) ∧
      (∀ {α : Type} [Pixel α] (log : CheckLog) (expected actual : Grid α),
        (log.compareGrids expected actual).1 = true ↔ expected.Matching actual) ∧
      ∀ (name : String) (mode : CheckMode) (checks : List Check),
        RunSpec name checks ((new name mode).run checks).1 ((new name mode).run checks).2 :=
  ⟨fun _ _ _ => Check.perform_iff, fun _ _ _ => compareGrids_iff, run_spec⟩

end CheckLog

end Morphology
