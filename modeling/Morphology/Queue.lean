/-!
First-in first-out queues of element indices in which no index waits twice.
-/

namespace Morphology

/-- What waits, oldest first in `front` and newest first in `back`, and which indices wait. -/
structure Queue (n : Nat) where
  front : List (Fin n)
  back : List (Fin n)
  queued : Vector Bool n
deriving DecidableEq

namespace Queue

variable {n : Nat}

def empty (n : Nat) : Queue n := ⟨[], [], Vector.replicate n false⟩

/-- The waiting indices, oldest first. -/
def toList (q : Queue n) : List (Fin n) := q.front ++ q.back.reverse

/-- An index that already waits keeps its place; the truth value says that the index is new. -/
def push (q : Queue n) (index : Fin n) : Bool × Queue n :=
  if q.queued.get index then (false, q)
  else (true, ⟨q.front, index :: q.back, q.queued.set index true index.isLt⟩)

def pop? (q : Queue n) : Option (Fin n × Queue n) :=
  match q.front with
  | index :: front => some (index, ⟨front, q.back, q.queued.set index false index.isLt⟩)
  | [] =>
      match q.back.reverse with
      | index :: front => some (index, ⟨front, [], q.queued.set index false index.isLt⟩)
      | [] => none

def size (q : Queue n) : Nat := q.front.length + q.back.length

def isEmpty (q : Queue n) : Bool := q.front.isEmpty && q.back.isEmpty

/-- There is no push of an index beyond the capacity. -/
def push? (q : Queue n) (index : Nat) : Option (Bool × Queue n) :=
  if h : index < n then some (q.push ⟨index, h⟩) else none

def isQueued? (q : Queue n) (index : Nat) : Option Bool := q.queued[index]?

/-- The indices popped until nothing waits. -/
def drained (q : Queue n) : List (Fin n) :=
  go q.size q
where
  go : Nat → Queue n → List (Fin n)
    | 0, _ => []
    | fuel + 1, q =>
        match q.pop? with
        | none => []
        | some (index, rest) => index :: go fuel rest

/-! ## The queue as a list -/

@[simp] theorem toList_empty : (empty n).toList = [] := rfl

theorem size_eq_length (q : Queue n) : q.size = q.toList.length := by
  simp [size, toList]

theorem isEmpty_eq (q : Queue n) : q.isEmpty = q.toList.isEmpty := by
  cases h : q.back <;> simp [isEmpty, toList, h]

theorem toList_push (q : Queue n) (index : Fin n) :
    (q.push index).2.toList = if q.queued.get index then q.toList else q.toList ++ [index] := by
  by_cases h : q.queued.get index = true <;> simp [push, toList, h]

theorem pop?_eq_none_iff {q : Queue n} : q.pop? = none ↔ q.toList = [] := by
  cases hf : q.front <;> cases hb : q.back.reverse <;> simp_all [pop?, toList]

theorem toList_of_pop? {q rest : Queue n} {index : Fin n} (popped : q.pop? = some (index, rest)) :
    q.toList = index :: rest.toList := by
  cases hf : q.front with
  | cons i is =>
      simp only [pop?, hf, Option.some.injEq, Prod.mk.injEq] at popped
      obtain ⟨rfl, rfl⟩ := popped
      simp [toList, hf]
  | nil =>
      cases hb : q.back.reverse with
      | nil => simp [pop?, hf, hb] at popped
      | cons i is =>
          simp only [pop?, hf, hb, Option.some.injEq, Prod.mk.injEq] at popped
          obtain ⟨rfl, rfl⟩ := popped
          simp [toList, hf, hb]

end Queue

end Morphology
