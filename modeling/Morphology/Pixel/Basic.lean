/-!
Values that a grid can hold. Their order is read off an integer rank; a value without a rank is
unordered and compares with nothing, not even itself.
-/

namespace Morphology

/-- Addition and subtraction stop at the least and the greatest finite value. -/
class Pixel (α : Type) where
  rank : α → Option Int
  minValue : α
  maxValue : α
  zero : α
  one : α
  add : α → α → α
  sub : α → α → α
  text : α → String

namespace Pixel

variable {α : Type} [Pixel α]

def lt (a b : α) : Bool :=
  match rank a, rank b with
  | some x, some y => x < y
  | _, _ => false

def eq (a b : α) : Bool :=
  match rank a, rank b with
  | some x, some y => x = y
  | _, _ => false

def le (a b : α) : Bool :=
  lt a b || eq a b

/-- Of two values that do not differ in order, the first. -/
def maxOf (a b : α) : α :=
  if lt a b then b else a

/-- Of two values that do not differ in order, the first. -/
def minOf (a b : α) : α :=
  if lt b a then b else a

def Ordered (a : α) : Prop :=
  (rank a).isSome

variable {a b : α} {x y : Int}

theorem lt_eq_decide (ha : rank a = some x) (hb : rank b = some y) : lt a b = decide (x < y) := by
  simp [lt, ha, hb]

theorem eq_eq_decide (ha : rank a = some x) (hb : rank b = some y) : eq a b = decide (x = y) := by
  simp [eq, ha, hb]

theorem le_eq_decide (ha : rank a = some x) (hb : rank b = some y) : le a b = decide (x ≤ y) := by
  rw [le, lt_eq_decide ha hb, eq_eq_decide ha hb]
  by_cases h : x ≤ y
  · simp only [h, decide_true, Bool.or_eq_true, decide_eq_true_eq]
    omega
  · simp only [h, decide_false, Bool.or_eq_false_iff, decide_eq_false_iff_not]
    omega

end Pixel

end Morphology
