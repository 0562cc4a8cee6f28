import Mathlib.Data.Nat.Choose.Basic
import Mathlib.Tactic.Ring
import Morphology.Proofs.Shape.Adjacency
import Morphology.Proofs.Shape.Positions

/-! The unit steps of a number of axes. An odometer runs through them once, in lexicographic order;
read backwards they are the same steps turned round; and those that change a given number of
coordinates are counted by a binomial coefficient. -/

namespace Morphology

/-- The last component that is below one grows, and those behind it start anew. The truth value says
that the odometer goes on; when no component can grow it stops. -/
def turn : List Int → Bool × List Int
  | [] => (false, [])
  | d :: ds =>
      match turn ds with
      | (true, rest) => (true, d :: rest)
      | (false, rest) => if d < 1 then (true, (d + 1) :: rest) else (false, -1 :: rest)

/-- What the odometer shows from a step on until it stops. -/
inductive Turns : List Int → List (List Int) → Prop where
  | last {delta next} (hturn : turn delta = (false, next)) : Turns delta [delta]
  | next {delta next rest} (hturn : turn delta = (true, next)) (hrest : Turns next rest) :
      Turns delta (delta :: rest)

theorem Turns.unique {delta : List Int} {first second : List (List Int)}
    (hfirst : Turns delta first) (hsecond : Turns delta second) : first = second := by
  induction hfirst generalizing second with
  | last hturn =>
      cases hsecond with
      | last _ => rfl
      | next hother _ => simp [hturn] at hother
  | next hturn _ ih =>
      cases hsecond with
      | last hother => simp [hturn] at hother
      | next hother hrest =>
          obtain rfl : _ = _ := by simpa [hturn] using hother
          rw [ih hrest]

theorem length_turn (delta : List Int) : (turn delta).2.length = delta.length := by
  induction delta with
  | nil => rfl
  | cons d ds ih =>
      rw [turn]
      split
      · next rest hrest => simpa [hrest] using ih
      · next rest hrest => split <;> simpa [hrest] using ih

theorem eq_replicate_of_turn {delta next : List Int} (h : turn delta = (false, next)) :
    next = List.replicate delta.length (-1) := by
  induction delta generalizing next with
  | nil =>
      cases h
      rfl
  | cons d ds ih =>
      rw [turn] at h
      split at h
      · cases h
      · next rest hrest =>
          split at h
          · cases h
          · cases h
            rw [ih hrest, List.length_cons, List.replicate_succ]

/-- While the components behind it turn, the first one stays. -/
theorem turn_cons_of_true {delta next : List Int} (h : turn delta = (true, next)) (d : Int) :
    turn (d :: delta) = (true, d :: next) := by
  simp [turn, h]

/-- Behind a one the odometer turns as without it, and then stops. -/
theorem Turns.cons_one {delta : List Int} {steps : List (List Int)} (h : Turns delta steps) :
    Turns (1 :: delta) (steps.map (1 :: ·)) := by
  induction h with
  | @last delta next hturn =>
      have hlast : turn (1 :: delta) = (false, -1 :: next) := by simp [turn, hturn]
      exact .last hlast
  | next hturn _ ih => exact .next (turn_cons_of_true hturn 1) ih

/-- Behind a smaller component the odometer turns as without it, and then goes on from the first
step behind the next one. -/
theorem Turns.cons_of_lt {delta : List Int} {steps rest : List (List Int)} {d : Int}
    (h : Turns delta steps) (hd : d < 1)
    (hrest : Turns ((d + 1) :: List.replicate delta.length (-1)) rest) :
    Turns (d :: delta) (steps.map (d :: ·) ++ rest) := by
  induction h with
  | @last delta next hturn =>
      have hgrows : turn (d :: delta) = (true, (d + 1) :: next) := by simp [turn, hturn, hd]
      rw [← eq_replicate_of_turn hturn] at hrest
      exact .next hgrows hrest
  | @next delta next _ hturn _ ih =>
      have hlength : next.length = delta.length := by
        rw [← length_turn delta, hturn]
      exact .next (turn_cons_of_true hturn d) (ih (hlength ▸ hrest))

theorem unitSteps_succ (n : Nat) : unitSteps (n + 1) =
    (unitSteps n).map (-1 :: ·) ++ ((unitSteps n).map (0 :: ·) ++ (unitSteps n).map (1 :: ·)) := by
  simp [unitSteps]

theorem turns_unitSteps (n : Nat) : Turns (List.replicate n (-1)) (unitSteps n) := by
  induction n with
  | zero => exact .last rfl
  | succ n ih =>
      have hone : Turns (1 :: List.replicate n (-1)) ((unitSteps n).map (1 :: ·)) := ih.cons_one
      have hzero : Turns (0 :: List.replicate n (-1))
          ((unitSteps n).map (0 :: ·) ++ (unitSteps n).map (1 :: ·)) :=
        ih.cons_of_lt (by decide) (by simpa using hone)
      rw [unitSteps_succ, List.replicate_succ]
      exact ih.cons_of_lt (by decide) (by simpa using hzero)

theorem turns_iff {n : Nat} {steps : List (List Int)} :
    Turns (List.replicate n (-1)) steps ↔ steps = unitSteps n := by
  constructor
  · intro h
    exact h.unique (turns_unitSteps n)
  · rintro rfl
    exact turns_unitSteps n

theorem pairwise_lt_unitSteps (n : Nat) : (unitSteps n).Pairwise (· < ·) := by
  induction n with
  | zero => exact List.pairwise_singleton _ _
  | succ n ih => exact pairwise_lt_flatMap_cons (by decide) ih

theorem reverse_unitSteps (n : Nat) :
    (unitSteps n).reverse = (unitSteps n).map fun delta => delta.map (- ·) := by
  induction n with
  | zero => rfl
  | succ n ih =>
      have hblock (d : Int) : ((unitSteps n).map (d :: ·)).reverse =
          ((unitSteps n).map (-d :: ·)).map fun delta => delta.map (- ·) := by
        rw [← List.map_reverse, ih, List.map_map, List.map_map]
        simp [Function.comp_def]
      rw [unitSteps_succ, List.reverse_append, List.reverse_append, hblock, hblock, hblock,
        List.map_append, List.map_append, List.append_assoc]
      simp

theorem length_unitSteps (n : Nat) : (unitSteps n).length = 3 ^ n := by
  induction n with
  | zero => rfl
  | succ n ih =>
      simp only [unitSteps_succ, List.length_append, List.length_map, ih]
      ring

/-- Of `n` coordinates the `k` that change are chosen, and each of them grows or shrinks. -/
theorem countP_unitSteps (n k : Nat) :
    (unitSteps n).countP (fun delta => delta.countP (· ≠ 0) = k) = 2 ^ k * n.choose k := by
  induction n generalizing k with
  | zero => cases k <;> simp [unitSteps]
  | succ n ih =>
      -- A first component of zero changes nothing, the two others one coordinate.
      have hsame : ((unitSteps n).map (0 :: ·)).countP (fun delta => delta.countP (· ≠ 0) = k) =
          2 ^ k * n.choose k := by
        rw [← ih, List.countP_map]
        simp [Function.comp_def]
      have hmore {d : Int} (hd : d ≠ 0) (k : Nat) :
          ((unitSteps n).map (d :: ·)).countP (fun delta => delta.countP (· ≠ 0) = k + 1) =
            2 ^ k * n.choose k := by
        rw [← ih, List.countP_map]
        simp [Function.comp_def, hd]
      have hnone {d : Int} (hd : d ≠ 0) :
          ((unitSteps n).map (d :: ·)).countP (fun delta => delta.countP (· ≠ 0) = 0) = 0 := by
        rw [List.countP_map]
        simp [Function.comp_def, hd]
      rw [unitSteps_succ, List.countP_append, List.countP_append, hsame]
      cases k with
      | zero =>
          rw [hnone (by decide), hnone (by decide)]
          simp
      | succ k =>
          rw [hmore (by decide), hmore (by decide), Nat.choose_succ_succ]
          ring

end Morphology
