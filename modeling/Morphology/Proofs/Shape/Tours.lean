import Morphology.Proofs.Shape.Numbering

/-! Loops over all positions that count an index and step through coordinates, each on its own. Both
stop after every index has been met once, always beside its own coordinates. -/

namespace Morphology.Shape

/-- The index counts up, and the loop ends when a step forward says so. -/
inductive ForwardTour (s : Shape) : Nat → List Nat → List (Nat × List Nat) → Prop where
  | last {index coords next} (hstep : s.stepForward? coords = some (false, next)) :
      ForwardTour s index coords [(index, coords)]
  | next {index coords next rest} (hstep : s.stepForward? coords = some (true, next))
      (hrest : ForwardTour s (index + 1) next rest) :
      ForwardTour s index coords ((index, coords) :: rest)

/-- The index counts down, and the loop ends when it is zero, whatever the steps backward say. -/
inductive BackwardTour (s : Shape) : Nat → List Nat → List (Nat × List Nat) → Prop where
  | last {coords} : BackwardTour s 0 coords [(0, coords)]
  | next {index coords more previous rest}
      (hstep : s.stepBackward? coords = some (more, previous))
      (hrest : BackwardTour s index previous rest) :
      BackwardTour s (index + 1) coords ((index + 1, coords) :: rest)

variable {s : Shape}

theorem ForwardTour.unique {index : Nat} {coords : List Nat} {first second : List (Nat × List Nat)}
    (hfirst : s.ForwardTour index coords first) (hsecond : s.ForwardTour index coords second) :
    first = second := by
  induction hfirst generalizing second with
  | last hstep =>
      cases hsecond with
      | last _ => rfl
      | next hother _ => simp [hstep] at hother
  | next hstep _ ih =>
      cases hsecond with
      | last hother => simp [hstep] at hother
      | next hother hrest =>
          obtain rfl : _ = _ := by simpa [hstep] using hother
          rw [ih hrest]

theorem BackwardTour.unique {index : Nat} {coords : List Nat}
    {first second : List (Nat × List Nat)} (hfirst : s.BackwardTour index coords first)
    (hsecond : s.BackwardTour index coords second) : first = second := by
  induction hfirst generalizing second with
  | last =>
      cases hsecond
      rfl
  | next hstep _ ih =>
      cases hsecond with
      | next hother hrest =>
          obtain ⟨rfl, rfl⟩ : _ = _ ∧ _ = _ := by simpa [hstep] using hother
          rw [ih hrest]

/-- An index beside its coordinates. -/
def spot (s : Shape) (index : Nat) : Nat × List Nat := (index, s.coordsOf index)

/-- From any index the loop meets the rest of them. -/
theorem forwardTour_coordsOf {count index : Nat} (h : index + count + 1 = s.len) :
    s.ForwardTour index (s.coordsOf index) ((List.range' index (count + 1)).map s.spot) := by
  induction count generalizing index with
  | zero =>
      obtain rfl : index = s.len - 1 := by omega
      exact .last stepForward?_last
  | succ count ih =>
      rw [List.range'_succ, List.map_cons]
      exact .next (stepForward?_lt (by omega)) (ih (by omega))

theorem backwardTour_coordsOf {index : Nat} (h : index < s.len) :
    s.BackwardTour index (s.coordsOf index) ((List.range (index + 1)).map s.spot).reverse := by
  induction index with
  | zero => exact .last
  | succ index ih =>
      rw [List.range_succ, List.map_append, List.reverse_append]
      exact .next (stepBackward?_succ h) (ih (by omega))

theorem forwardTour_iff {spots : List (Nat × List Nat)} :
    s.ForwardTour 0 s.firstCoords spots ↔ spots = (List.range s.len).map s.spot := by
  have hpos := s.len_pos
  have htour : s.ForwardTour 0 s.firstCoords ((List.range s.len).map s.spot) := by
    have h : s.ForwardTour 0 (s.coordsOf 0) ((List.range' 0 (s.len - 1 + 1)).map s.spot) :=
      forwardTour_coordsOf (by omega)
    rwa [coordsOf_zero, Nat.sub_add_cancel hpos, ← List.range_eq_range'] at h
  constructor
  · intro h
    exact h.unique htour
  · rintro rfl
    exact htour

theorem backwardTour_iff {spots : List (Nat × List Nat)} :
    s.BackwardTour (s.len - 1) s.lastCoords spots ↔
      spots = ((List.range s.len).map s.spot).reverse := by
  have hpos := s.len_pos
  have htour :
      s.BackwardTour (s.len - 1) s.lastCoords ((List.range s.len).map s.spot).reverse := by
    have h : s.BackwardTour (s.len - 1) (s.coordsOf (s.len - 1))
        ((List.range (s.len - 1 + 1)).map s.spot).reverse := backwardTour_coordsOf (by omega)
    rwa [coordsOf_last, Nat.sub_add_cancel hpos] at h
  constructor
  · intro h
    exact h.unique htour
  · rintro rfl
    exact htour

end Morphology.Shape
