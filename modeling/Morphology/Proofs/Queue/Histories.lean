import Morphology.Proofs.Queue

/-! Queues and their clones under any sequence of requests. Each answers like a plain list of
indices without duplicates, and what has left it is the oldest part of what has entered it. -/

namespace Morphology.Queue

inductive Request where
  | push (index : Nat)
  | pop
  | isQueued (index : Nat)
deriving DecidableEq

inductive Answer where
  | pushed (new : Bool)
  | popped (index? : Option Nat)
  | queued (waits : Bool)
  /-- The index lies beyond the capacity. -/
  | refused
deriving DecidableEq

variable {n : Nat}

/-- A refused request leaves the queue as it was. -/
def serve (q : Queue n) : Request → Answer × Queue n
  | .push index =>
      match q.push? index with
      | none => (.refused, q)
      | some (new, next) => (.pushed new, next)
  | .pop =>
      match q.pop? with
      | none => (.popped none, q)
      | some (index, rest) => (.popped (some index), rest)
  | .isQueued index =>
      match q.isQueued? index with
      | none => (.refused, q)
      | some waits => (.queued waits, q)

/-- The same requests to the list of indices that wait, oldest first. -/
def serveList (n : Nat) (waiting : List Nat) : Request → Answer × List Nat
  | .push index =>
      if n ≤ index then (.refused, waiting)
      else if index ∈ waiting then (.pushed false, waiting)
      else (.pushed true, waiting ++ [index])
  | .pop =>
      match waiting with
      | [] => (.popped none, [])
      | index :: rest => (.popped (some index), rest)
  | .isQueued index =>
      if n ≤ index then (.refused, waiting) else (.queued (index ∈ waiting), waiting)

/-! ## Families of clones -/

/-- A state with all requests that led to it and their answers, oldest first. -/
structure Life (σ : Type) where
  state : σ
  history : List (Request × Answer)

inductive Command where
  | ask (member : Nat) (request : Request)
  | clone (member : Nat)

section Families

variable {σ τ : Type}

def Life.ask (serve : σ → Request → Answer × σ) (life : Life σ) (request : Request) : Life σ :=
  ⟨(serve life.state request).2, life.history ++ [(request, (serve life.state request).1)]⟩

def Life.map (view : σ → τ) (life : Life σ) : Life τ := ⟨view life.state, life.history⟩

/-- A clone joins the family with the life that it shares so far. -/
def obey (serve : σ → Request → Answer × σ) (family : List (Life σ)) :
    Command → List (Life σ)
  | .ask member request =>
      match family[member]? with
      | none => family
      | some life => family.set member (life.ask serve request)
  | .clone member => family ++ family[member]?.toList

/-- All members after some commands to a family that begins with one. -/
def familyAfter (serve : σ → Request → Answer × σ) (start : σ) (commands : List Command) :
    List (Life σ) :=
  commands.foldl (obey serve) [⟨start, []⟩]

variable {serve : σ → Request → Answer × σ}

theorem forall_mem_obey {P : Life σ → Prop}
    (hask : ∀ life request, P life → P (life.ask serve request))
    {family : List (Life σ)} (h : ∀ life ∈ family, P life) (command : Command) :
    ∀ life ∈ obey serve family command, P life := by
  intro life hlife
  cases command with
  | ask member request =>
      rw [obey] at hlife
      cases hmember : family[member]? with
      | none =>
          rw [hmember] at hlife
          exact h life hlife
      | some asked =>
          rw [hmember] at hlife
          rcases List.mem_or_eq_of_mem_set hlife with hold | rfl
          · exact h life hold
          · exact hask asked request (h asked (List.mem_of_getElem? hmember))
  | clone member =>
      rcases List.mem_append.mp hlife with hold | hnew
      · exact h life hold
      · exact h life (List.mem_of_getElem? (Option.mem_toList.mp hnew))

/-- What every request preserves holds of all members at all times. -/
theorem forall_mem_familyAfter {P : Life σ → Prop} {start : σ} (hstart : P ⟨start, []⟩)
    (hask : ∀ life request, P life → P (life.ask serve request)) (commands : List Command) :
    ∀ life ∈ familyAfter serve start commands, P life := by
  have hrun : ∀ family : List (Life σ), (∀ life ∈ family, P life) →
      ∀ life ∈ commands.foldl (obey serve) family, P life := by
    induction commands with
    | nil => exact fun _ h => h
    | cons command commands ih =>
        intro family h
        exact ih _ (forall_mem_obey hask h command)
  exact hrun _ (by simpa using hstart)

/-- Machines that answer alike on corresponding states make corresponding families. -/
theorem familyAfter_map {serve' : τ → Request → Answer × τ} (view : σ → τ) {I : σ → Prop}
    {start : σ} (hstart : I start) (hkept : ∀ state request, I state → I (serve state request).2)
    (halike : ∀ state request, I state →
      serve' (view state) request = ((serve state request).1, view (serve state request).2))
    (commands : List Command) :
    familyAfter serve' (view start) commands =
      (familyAfter serve start commands).map (Life.map view) := by
  have hrun : ∀ family : List (Life σ), (∀ life ∈ family, I life.state) →
      commands.foldl (obey serve') (family.map (Life.map view)) =
        (commands.foldl (obey serve) family).map (Life.map view) := by
    induction commands with
    | nil => exact fun _ _ => rfl
    | cons command commands ih =>
        intro family h
        have hobey : obey serve' (family.map (Life.map view)) command =
            (obey serve family command).map (Life.map view) := by
          cases command with
          | clone member => cases hmember : family[member]? <;> simp [obey, hmember]
          | ask member request =>
              cases hmember : family[member]? with
              | none => simp [obey, hmember]
              | some life =>
                  have hlife := halike life.state request (h life (List.mem_of_getElem? hmember))
                  simp [obey, hmember, Life.map, Life.ask, hlife]
        rw [List.foldl_cons, List.foldl_cons, hobey]
        exact ih _ (forall_mem_obey (P := fun life => I life.state)
          (fun life request => hkept life.state request) h command)
  exact hrun [⟨start, []⟩] (by simpa using hstart)

end Families

/-! ## What a queue answers -/

def waiting (q : Queue n) : List Nat := q.toList.map Fin.val

theorem mem_waiting_iff {q : Queue n} {i : Fin n} : (i : Nat) ∈ q.waiting ↔ i ∈ q.toList := by
  rw [waiting, List.mem_map]
  constructor
  · rintro ⟨j, hj, hval⟩
    exact Fin.ext hval ▸ hj
  · intro hi
    exact ⟨i, hi, rfl⟩

theorem Consistent.get_queued {q : Queue n} (h : q.Consistent) (i : Fin n) :
    q.queued.get i = decide ((i : Nat) ∈ q.waiting) := by
  rw [Bool.eq_iff_iff, h.queued_iff, decide_eq_true_eq, mem_waiting_iff]

theorem isQueued?_eq {q : Queue n} (h : q.Consistent) (index : Nat) :
    q.isQueued? index = if index < n then some (decide (index ∈ q.waiting)) else none := by
  by_cases hlt : index < n
  · rw [if_pos hlt, ← h.get_queued ⟨index, hlt⟩]
    exact Vector.getElem?_eq_getElem hlt
  · rw [if_neg hlt]
    exact Vector.getElem?_eq_none (Nat.le_of_not_lt hlt)

theorem push?_of_le (q : Queue n) {index : Nat} (h : n ≤ index) : q.push? index = none :=
  dif_neg (Nat.not_lt.mpr h)

/-- Whether an index waits already is what a push says, and the queue grows only if not. -/
theorem push?_spec {q : Queue n} (h : q.Consistent) {index : Nat} (hlt : index < n) :
    ∃ next, q.push? index = some (!decide (index ∈ q.waiting), next) ∧
      next.waiting = if index ∈ q.waiting then q.waiting else q.waiting ++ [index] := by
  have hflag := h.get_queued ⟨index, hlt⟩
  refine ⟨(q.push ⟨index, hlt⟩).2, ?_, ?_⟩
  · rw [push?, dif_pos hlt, Option.some.injEq, Prod.ext_iff, push, hflag]
    by_cases hwaits : index ∈ q.waiting <;> simp [hwaits]
  · rw [waiting, toList_push, hflag]
    by_cases hwaits : index ∈ q.waiting
    · rw [if_pos hwaits, if_pos (decide_eq_true hwaits), ← waiting]
    · rw [if_neg hwaits, if_neg (by simpa using hwaits), List.map_append, ← waiting]
      rfl

theorem waiting_of_pop? {q rest : Queue n} {i : Fin n} (h : q.pop? = some (i, rest)) :
    q.waiting = (i : Nat) :: rest.waiting := by
  rw [waiting, toList_of_pop? h, List.map_cons, ← waiting]

theorem Consistent.serve {q : Queue n} (h : q.Consistent) (request : Request) :
    (q.serve request).2.Consistent := by
  cases request with
  | push index =>
      by_cases hlt : index < n
      · simpa [Queue.serve, push?, hlt] using h.push ⟨index, hlt⟩
      · simpa [Queue.serve, push?, hlt] using h
  | pop =>
      cases hpop : q.pop? with
      | none => simpa [Queue.serve, hpop] using h
      | some popped => simpa [Queue.serve, hpop] using h.removed (removed_of_pop? hpop)
  | isQueued index =>
      cases hqueued : q.isQueued? index <;> simpa [Queue.serve, hqueued] using h

theorem serveList_waiting {q : Queue n} (h : q.Consistent) (request : Request) :
    serveList n q.waiting request = ((q.serve request).1, (q.serve request).2.waiting) := by
  cases request with
  | push index =>
      by_cases hlt : index < n
      · obtain ⟨next, hpush, hnext⟩ := push?_spec h hlt
        have hle : ¬ n ≤ index := Nat.not_le.mpr hlt
        by_cases hwaits : index ∈ q.waiting <;>
          simp [serveList, Queue.serve, hpush, hnext, hle, hwaits]
      · simp [serveList, Queue.serve, push?, hlt, Nat.not_lt.mp hlt]
  | pop =>
      cases hpop : q.pop? with
      | none =>
          have hempty : q.waiting = [] := by rw [waiting, pop?_eq_none_iff.mp hpop, List.map_nil]
          simp [serveList, Queue.serve, hpop, hempty]
      | some popped =>
          have hwaiting := waiting_of_pop? hpop
          simp [serveList, Queue.serve, hpop, hwaiting]
  | isQueued index =>
      by_cases hlt : index < n
      · simp [serveList, Queue.serve, isQueued?_eq h, hlt, Nat.not_le.mpr hlt]
      · simp [serveList, Queue.serve, isQueued?_eq h, hlt, Nat.not_lt.mp hlt]

/-! ## What has entered and left -/

def entering? : Request × Answer → Option Nat
  | (.push index, .pushed true) => some index
  | _ => none

def leaving? : Request × Answer → Option Nat
  | (.pop, .popped index?) => index?
  | _ => none

theorem serveList_accounted (n : Nat) (waiting : List Nat) (request : Request) :
    let served := serveList n waiting request
    waiting ++ (entering? (request, served.1)).toList =
      (leaving? (request, served.1)).toList ++ served.2 := by
  cases request with
  | push index =>
      by_cases hle : n ≤ index
      · simp [serveList, hle, entering?, leaving?]
      · by_cases hwaits : index ∈ waiting <;>
          simp [serveList, hle, hwaits, entering?, leaving?]
  | pop => cases waiting <;> simp [serveList, entering?, leaving?]
  | isQueued index => by_cases hle : n ≤ index <;> simp [serveList, hle, entering?, leaving?]

theorem entered_eq_left_append_waiting {n : Nat} {commands : List Command} :
    ∀ life ∈ familyAfter (serveList n) [] commands,
      life.history.filterMap entering? = life.history.filterMap leaving? ++ life.state := by
  apply forall_mem_familyAfter (P := fun life =>
    life.history.filterMap entering? = life.history.filterMap leaving? ++ life.state)
  · rfl
  · intro life request h
    have hstep := serveList_accounted n life.state request
    have hlast (f : Request × Answer → Option Nat) (event : Request × Answer) :
        [event].filterMap f = (f event).toList := by
      cases hevent : f event <;> simp [hevent]
    simp only [Life.ask, List.filterMap_append, h, List.append_assoc, hlast]
    rw [hstep]

/-- What holds of a queue after any history of requests. -/
structure Faithful (q : Queue n) (history : List (Request × Answer)) : Prop where
  nodup : q.waiting.Nodup
  size_eq : q.size = q.waiting.length
  size_le : q.size ≤ n
  isEmpty_iff : q.isEmpty = true ↔ q.size = 0
  isQueued?_iff : ∀ index, q.isQueued? index = some true ↔ index < n ∧ index ∈ q.waiting
  push?_iff : ∀ index < n, (∃ next, q.push? index = some (false, next)) ↔ index ∈ q.waiting
  entered_eq : history.filterMap entering? = history.filterMap leaving? ++ q.waiting
  refused : ∀ index, n ≤ index → q.push? index = none ∧ q.isQueued? index = none

theorem consistent_of_mem_familyAfter {commands : List Command} :
    ∀ life ∈ familyAfter serve (empty n) commands, life.state.Consistent :=
  forall_mem_familyAfter (P := fun life : Life (Queue n) => life.state.Consistent) consistent_empty
    (fun _ request h => h.serve request) commands

/-- After any commands a family of queues is the family of the lists that they denote: both have
given the same answers. -/
theorem familyAfter_serveList (n : Nat) (commands : List Command) :
    familyAfter (serveList n) [] commands =
      (familyAfter serve (empty n) commands).map (Life.map waiting) :=
  familyAfter_map waiting (I := Consistent) consistent_empty (fun _ request h => h.serve request)
    (fun _ request h => serveList_waiting h request) commands

theorem Consistent.faithful {q : Queue n} {history : List (Request × Answer)} (h : q.Consistent)
    (hentered : history.filterMap entering? = history.filterMap leaving? ++ q.waiting) :
    q.Faithful history where
  nodup := h.nodup.map fun _ _ => Fin.ext
  size_eq := by rw [size_eq_length, waiting, List.length_map]
  size_le := h.size_le
  isEmpty_iff := by rw [isEmpty_eq, size_eq_length, List.isEmpty_iff, List.length_eq_zero_iff]
  isQueued?_iff index := by
    rw [isQueued?_eq h]
    by_cases hlt : index < n <;> simp [hlt]
  push?_iff index hlt := by
    obtain ⟨next, hpush, _⟩ := push?_spec h hlt
    simp [hpush]
  entered_eq := hentered
  refused index hle := by
    refine ⟨push?_of_le q hle, ?_⟩
    rw [isQueued?_eq h, if_neg (Nat.not_lt.mpr hle)]

/-- Whatever is asked of a queue and its clones, each answers like a list without duplicates that is
served at its ends; a clone and its origin do not disturb each other. What has left a queue is the
oldest part of what has entered it, and a request about an index beyond the capacity is refused and
leaves the queue as it was. -/
theorem familyAfter_refines_serveList (n : Nat) (commands : List Command) :
    (familyAfter serve (empty n) commands).map (Life.map waiting) =
        familyAfter (serveList n) [] commands ∧
      (∀ life ∈ familyAfter serve (empty n) commands, life.state.Faithful life.history) ∧
      ∀ (q : Queue n) (index : Nat), n ≤ index →
        q.serve (.push index) = (.refused, q) ∧ q.serve (.isQueued index) = (.refused, q) := by
  refine ⟨(familyAfter_serveList n commands).symm, ?_, ?_⟩
  · intro life hlife
    apply (consistent_of_mem_familyAfter life hlife).faithful
    have hlist : life.map waiting ∈ familyAfter (serveList n) [] commands := by
      rw [familyAfter_serveList]
      exact List.mem_map_of_mem hlife
    exact entered_eq_left_append_waiting _ hlist
  · intro q index hle
    have hnone : q.isQueued? index = none := Vector.getElem?_eq_none hle
    simp [serve, push?_of_le q hle, hnone]

end Morphology.Queue
