import Mathlib.Data.Set.Insert
import Morphology.Proofs.Box.Windows

/-! Running extrema filled into buffers in place: one loop goes up a line and one down, and each
starts anew where a block does. Whatever the buffers held before, they then hold each block combined
up to each position and from each position on, and both together every window combined. -/

namespace Morphology

variable {α : Type}

/-- Room for running extrema, used for one line after the other. -/
structure Buffers (α : Type) where
  upTo : List α
  onward : List α

def refill (buffer values : List α) : List α :=
  buffer.take 0 ++ values

variable [Pixel α]

/-- At the target the line's own value goes combined with the buffer's value at the source. There is
no access out of bounds. -/
def takeIn? (kind : Kind) (values buffer : List α) (source target : Nat) : Option (List α) := do
  let value ← buffer[source]?
  let own ← values[target]?
  if target < buffer.length then some (buffer.set target (kind.combine value own)) else none

/-- From the second position up, each position takes in the one before it unless it starts a
block. -/
def fillUpTo? (kind : Kind) (width : Nat) (values buffer : List α) : Option (List α) :=
  (List.range' 1 (values.length - 1)).foldlM
    (fun buffer i => if i % width = 0 then some buffer else takeIn? kind values buffer (i - 1) i)
    (refill buffer values)

/-- From the last position but one down, each position takes in the one behind it unless that one
starts a block. -/
def fillOnward? (kind : Kind) (width : Nat) (values buffer : List α) : Option (List α) :=
  (List.range (values.length - 1)).reverse.foldlM
    (fun buffer i =>
      if (i + 1) % width = 0 then some buffer else takeIn? kind values buffer (i + 1) i)
    (refill buffer values)

def fill? (kind : Kind) (width : Nat) (values : List α) (buffers : Buffers α) :
    Option (Buffers α) := do
  let upTo ← fillUpTo? kind width values buffers.upTo
  let onward ← fillOnward? kind width values buffers.onward
  return ⟨upTo, onward⟩

variable {kind : Kind} {width : Nat} {values : List α}

theorem getElem?_extremaUpTo_zero (kind : Kind) (width : Nat) (values : List α) :
    (extremaUpTo kind width values)[0]? = values[0]? := by
  cases values <;> rfl

theorem getElem?_extremaUpTo_go {position i : Nat} {previous value own : α}
    (hvalue : (previous :: extremaUpTo.go kind width position previous values)[i]? = some value)
    (hown : values[i]? = some own) :
    (extremaUpTo.go kind width position previous values)[i]? =
      some (if (position + i) % width = 0 then own else kind.combine value own) := by
  induction values generalizing position previous i with
  | nil => simp at hown
  | cons x xs ih =>
      rw [extremaUpTo.go] at hvalue ⊢
      cases i with
      | zero =>
          simp only [List.getElem?_cons_zero, Option.some.injEq] at hvalue hown
          rw [List.getElem?_cons_zero, hvalue, hown, Nat.add_zero]
      | succ i =>
          have hposition : position + (i + 1) = position + 1 + i := by omega
          rw [List.getElem?_cons_succ] at hvalue hown ⊢
          rw [ih hvalue hown, hposition]

theorem getElem?_extremaUpTo_succ {i : Nat} {value own : α}
    (hvalue : (extremaUpTo kind width values)[i]? = some value) (hown : values[i + 1]? = some own) :
    (extremaUpTo kind width values)[i + 1]? =
      some (if (i + 1) % width = 0 then own else kind.combine value own) := by
  cases values with
  | nil => simp at hown
  | cons x xs =>
      rw [extremaUpTo] at hvalue ⊢
      rw [List.getElem?_cons_succ] at hown ⊢
      rw [getElem?_extremaUpTo_go hvalue hown, Nat.add_comm 1]

theorem getElem?_extremaFrom_go {position i : Nat} {own : α} {values : List α}
    (hown : values[i]? = some own) :
    ((extremaFrom.go kind width position values)[i + 1]? = none →
        (extremaFrom.go kind width position values)[i]? = some own) ∧
      ∀ next, (extremaFrom.go kind width position values)[i + 1]? = some next →
        (extremaFrom.go kind width position values)[i]? =
          some (if (position + i + 1) % width = 0 then own else kind.combine next own) := by
  induction values generalizing position i with
  | nil => simp at hown
  | cons x xs ih =>
      obtain ⟨value, hgo, hlast, hnext⟩ := exists_extremaFrom_go_cons kind width position x xs
      rw [hgo]
      cases i with
      | zero =>
          obtain rfl : x = own := by simpa using hown
          refine ⟨?_, ?_⟩
          · intro h
            rw [List.getElem?_cons_zero, hlast h]
          · intro next h
            rw [List.getElem?_cons_zero, hnext next h, Nat.add_zero]
      | succ i =>
          have hposition : position + (i + 1) + 1 = position + 1 + i + 1 := by omega
          simp only [List.getElem?_cons_succ, hposition] at hown ⊢
          exact ih hown

theorem getElem?_extremaFrom_last {i : Nat} (h : i + 1 = values.length) :
    (extremaFrom kind width values)[i]? = values[i]? := by
  have hi : i < values.length := by omega
  have hnone : (extremaFrom kind width values)[i + 1]? = none := by
    rw [List.getElem?_eq_none]
    rw [length_extremaFrom]
    omega
  rw [List.getElem?_eq_getElem hi]
  exact (getElem?_extremaFrom_go (List.getElem?_eq_getElem hi)).1 hnone

theorem getElem?_extremaFrom_of_next {i : Nat} {next own : α}
    (hnext : (extremaFrom kind width values)[i + 1]? = some next) (hown : values[i]? = some own) :
    (extremaFrom kind width values)[i]? =
      some (if (i + 1) % width = 0 then own else kind.combine next own) := by
  have h := (getElem?_extremaFrom_go hown).2 next hnext
  rwa [Nat.zero_add] at h

/-! ## The loops -/

/-- At the positions done a buffer holds what it shall hold in the end, at the others still the
line. -/
structure Filled (values final : List α) (done : Set Nat) (buffer : List α) : Prop where
  length_eq : buffer.length = values.length
  done_eq : ∀ i ∈ done, buffer[i]? = final[i]?
  rest_eq : ∀ i ∉ done, buffer[i]? = values[i]?

namespace Filled

variable {final buffer : List α} {done : Set Nat} {source target : Nat} {value own : α}

omit [Pixel α] in
theorem keep (h : Filled values final done buffer) (hsame : values[target]? = final[target]?) :
    Filled values final (insert target done) buffer := by
  refine ⟨h.length_eq, ?_, fun i hi => h.rest_eq i fun hdone => hi (Set.mem_insert_of_mem _ hdone)⟩
  intro i hi
  by_cases hdone : i ∈ done
  · exact h.done_eq i hdone
  · obtain rfl := (Set.mem_insert_iff.mp hi).resolve_right hdone
    rw [h.rest_eq i hdone, hsame]

theorem takeIn (h : Filled values final done buffer) (hsource : source ∈ done)
    (hvalue : final[source]? = some value) (hown : values[target]? = some own)
    (hfinal : final[target]? = some (kind.combine value own)) :
    ∃ next, takeIn? kind values buffer source target = some next ∧
      Filled values final (insert target done) next := by
  have htarget : target < buffer.length := by
    rw [h.length_eq]
    exact (List.getElem?_eq_some_iff.mp hown).1
  refine ⟨buffer.set target (kind.combine value own), ?_, ?_, ?_, ?_⟩
  · simp [takeIn?, h.done_eq source hsource, hvalue, hown, htarget]
  · rw [List.length_set, h.length_eq]
  · intro i hi
    rw [List.getElem?_set]
    by_cases htarget' : target = i
    · subst htarget'
      simp [htarget, hfinal]
    · rw [if_neg htarget']
      exact h.done_eq i ((Set.mem_insert_iff.mp hi).resolve_left (Ne.symm htarget'))
  · intro i hi
    rw [Set.mem_insert_iff, not_or] at hi
    rw [List.getElem?_set_ne (Ne.symm hi.1)]
    exact h.rest_eq i hi.2

theorem step (h : Filled values final done buffer) {fresh : Prop} [Decidable fresh]
    (hsource : source ∈ done) (hvalue : final[source]? = some value)
    (hown : values[target]? = some own)
    (hfinal : final[target]? = some (if fresh then own else kind.combine value own)) :
    ∃ next, (if fresh then some buffer else takeIn? kind values buffer source target) = some next ∧
      Filled values final (insert target done) next := by
  by_cases hfresh : fresh
  · rw [if_pos hfresh] at hfinal ⊢
    exact ⟨buffer, rfl, h.keep (hown.trans hfinal.symm)⟩
  · rw [if_neg hfresh] at hfinal ⊢
    exact h.takeIn hsource hvalue hown hfinal

omit [Pixel α] in
theorem eq_final (h : Filled values final done buffer) (hlength : final.length = values.length)
    (hall : ∀ i < values.length, i ∈ done) : buffer = final := by
  apply List.ext_getElem?
  intro i
  by_cases hi : i < values.length
  · exact h.done_eq i (hall i hi)
  · rw [List.getElem?_eq_none (by rw [h.length_eq]; omega),
      List.getElem?_eq_none (by omega)]

end Filled

omit [Pixel α] in
theorem refill_eq (buffer values : List α) : refill buffer values = values := by
  simp [refill]

theorem foldlM_fillUpTo {count start : Nat} {buffer : List α} (hstart : 0 < start)
    (hend : start + count = values.length)
    (h : Filled values (extremaUpTo kind width values) {i | i < start} buffer) :
    (List.range' start count).foldlM
        (fun buffer i =>
          if i % width = 0 then some buffer else takeIn? kind values buffer (i - 1) i)
        buffer =
      some (extremaUpTo kind width values) := by
  induction count generalizing start buffer with
  | zero =>
      have hdone := h.eq_final (length_extremaUpTo kind width values) fun i hi => by
        rw [Set.mem_ofPred_eq]
        omega
      rw [hdone]
      rfl
  | succ count ih =>
      have hinsert : insert start {i | i < start} = {i | i < start + 1} := by
        ext i
        simp only [Set.mem_insert_iff, Set.mem_ofPred_eq]
        omega
      have hbefore : start - 1 + 1 = start := by omega
      obtain ⟨own, hown⟩ : ∃ own, values[start]? = some own :=
        ⟨_, List.getElem?_eq_getElem (by omega)⟩
      obtain ⟨value, hvalue⟩ : ∃ value, (extremaUpTo kind width values)[start - 1]? = some value :=
        ⟨_, List.getElem?_eq_getElem (by rw [length_extremaUpTo]; omega)⟩
      have hfinal := getElem?_extremaUpTo_succ hvalue (hbefore.symm ▸ hown)
      rw [hbefore] at hfinal
      have hsource : start - 1 ∈ {i | i < start} := by
        rw [Set.mem_ofPred_eq]
        omega
      obtain ⟨next, hstep, hnext⟩ := h.step hsource hvalue hown hfinal
      rw [List.range'_succ, List.foldlM_cons, hstep]
      exact ih (by omega) (by omega) (hinsert ▸ hnext)

theorem fillUpTo?_eq (kind : Kind) (width : Nat) (values buffer : List α) :
    fillUpTo? kind width values buffer = some (extremaUpTo kind width values) := by
  rw [fillUpTo?, refill_eq]
  cases values with
  | nil => rfl
  | cons x xs =>
      apply foldlM_fillUpTo Nat.one_pos (by simp; omega)
      refine ⟨rfl, ?_, fun _ _ => rfl⟩
      intro i hi
      obtain rfl : i = 0 := Nat.lt_one_iff.mp hi
      rw [getElem?_extremaUpTo_zero]

theorem foldlM_fillOnward {count : Nat} {buffer : List α} (hcount : count < values.length)
    (h : Filled values (extremaFrom kind width values) {i | count ≤ i} buffer) :
    (List.range count).reverse.foldlM
        (fun buffer i =>
          if (i + 1) % width = 0 then some buffer else takeIn? kind values buffer (i + 1) i)
        buffer =
      some (extremaFrom kind width values) := by
  induction count generalizing buffer with
  | zero =>
      have hdone := h.eq_final (length_extremaFrom kind width values) fun i _ => Nat.zero_le i
      rw [hdone]
      rfl
  | succ count ih =>
      have hinsert : insert count {i | count + 1 ≤ i} = {i | count ≤ i} := by
        ext i
        simp only [Set.mem_insert_iff, Set.mem_ofPred_eq]
        omega
      obtain ⟨own, hown⟩ : ∃ own, values[count]? = some own :=
        ⟨_, List.getElem?_eq_getElem (by omega)⟩
      obtain ⟨value, hvalue⟩ : ∃ value, (extremaFrom kind width values)[count + 1]? = some value :=
        ⟨_, List.getElem?_eq_getElem (by rw [length_extremaFrom]; omega)⟩
      have hfinal := getElem?_extremaFrom_of_next hvalue hown
      obtain ⟨next, hstep, hnext⟩ := h.step (Nat.le_refl (count + 1)) hvalue hown hfinal
      rw [List.range_succ, List.reverse_append, List.reverse_singleton, List.singleton_append,
        List.foldlM_cons, hstep]
      exact ih (by omega) (hinsert ▸ hnext)

theorem fillOnward?_eq (kind : Kind) (width : Nat) (values buffer : List α) :
    fillOnward? kind width values buffer = some (extremaFrom kind width values) := by
  rw [fillOnward?, refill_eq]
  cases values with
  | nil => rfl
  | cons x xs =>
      apply foldlM_fillOnward (by simp)
      refine ⟨rfl, ?_, fun _ _ => rfl⟩
      intro i hi
      by_cases hlast : i + 1 = (x :: xs).length
      · rw [getElem?_extremaFrom_last hlast]
      · have hlong : (x :: xs).length ≤ i := by
          rw [Set.mem_ofPred_eq] at hi
          omega
        rw [List.getElem?_eq_none hlong,
          List.getElem?_eq_none (by rw [length_extremaFrom]; exact hlong)]

/-- Whatever the buffers held, no access of the loops fails, and they leave the running extrema. -/
theorem fill?_eq (kind : Kind) (width : Nat) (values : List α) (buffers : Buffers α) :
    fill? kind width values buffers =
      some ⟨extremaUpTo kind width values, extremaFrom kind width values⟩ := by
  rw [fill?, fillUpTo?_eq, fillOnward?_eq]
  rfl

/-! ## Values combined -/

/-- A value compares equal to some values combined one after the other. -/
def Kind.Combines (kind : Kind) (values : List α) (a : α) : Prop :=
  ∃ first rest, values = first :: rest ∧ Pixel.eq a (rest.foldl kind.combine first) = true

omit [Pixel α] in
theorem mem_extract_iff {start stop : Nat} {b : α} :
    b ∈ values.extract start stop ↔ ∃ j, (start ≤ j ∧ j < stop) ∧ values[j]? = some b := by
  rw [List.extract_eq_drop_take', List.mem_iff_getElem?]
  simp only [List.getElem?_drop, List.getElem?_take]
  constructor
  · rintro ⟨i, hi⟩
    split at hi
    · exact ⟨start + i, by omega, hi⟩
    · cases hi
  · rintro ⟨j, hj, hb⟩
    refine ⟨j - start, ?_⟩
    rw [Nat.add_sub_cancel' hj.1, if_pos hj.2, hb]

theorem combines_extract_of_attains {start stop : Nat} {a : α}
    (hline : ∀ b ∈ values, Pixel.Ordered b) (ha : Pixel.Ordered a)
    (h : ∀ t, t ≤ kind.level a ↔ ∃ j, (start ≤ j ∧ j < stop) ∧ Attains kind t values j) :
    kind.Combines (values.extract start stop) a := by
  have hordered : ∀ b ∈ values.extract start stop, Pixel.Ordered b := by
    intro b hb
    obtain ⟨j, _, hget⟩ := mem_extract_iff.mp hb
    exact hline b (List.mem_of_getElem? hget)
  have hlevel (t : Int) : t ≤ kind.level a ↔ ∃ b ∈ values.extract start stop, t ≤ kind.level b := by
    rw [h]
    constructor
    · rintro ⟨j, hj, b, hb, ht⟩
      exact ⟨b, mem_extract_iff.mpr ⟨j, hj, hb⟩, ht⟩
    · rintro ⟨b, hb, ht⟩
      obtain ⟨j, hj, hget⟩ := mem_extract_iff.mp hb
      exact ⟨j, hj, b, hget, ht⟩
  cases hstretch : values.extract start stop with
  | nil =>
      -- A value reaches its own level, so no stretch without elements describes it.
      obtain ⟨b, hb, _⟩ := (hlevel _).mp le_rfl
      rw [hstretch] at hb
      cases hb
  | cons first rest =>
      rw [hstretch] at hordered hlevel
      rw [List.forall_mem_cons] at hordered
      refine ⟨first, rest, rfl, ?_⟩
      rw [Kind.eq_iff kind ha (Kind.ordered_foldl_combine kind rest hordered.1)]
      -- Two levels are equal if they reach the same thresholds.
      apply eq_of_forall_le_iff
      intro t
      rw [hlevel, Kind.le_level_foldl_combine_iff kind hordered.2 hordered.1]
      simp only [List.mem_cons, exists_eq_or_imp]

/-! ## Blocks and windows -/

theorem le_and_div_eq_iff (hwidth : 0 < width) {i j : Nat} :
    j ≤ i ∧ j / width = i / width ↔ i / width * width ≤ j ∧ j < i + 1 := by
  rw [← Nat.le_div_iff_mul_le hwidth, Nat.lt_succ_iff]
  constructor
  · rintro ⟨hle, hblock⟩
    exact ⟨hblock.ge, hle⟩
  · rintro ⟨hblock, hle⟩
    exact ⟨hle, (Nat.div_le_div_right hle).antisymm hblock⟩

theorem ge_and_div_eq_iff (hwidth : 0 < width) {i j : Nat} :
    i ≤ j ∧ j / width = i / width ↔ i ≤ j ∧ j < (i / width + 1) * width := by
  rw [← Nat.div_lt_iff_lt_mul hwidth, Nat.lt_succ_iff, and_congr_right_iff]
  intro hle
  constructor
  · exact fun hblock => hblock.le
  · exact fun hblock => hblock.antisymm (Nat.div_le_div_right hle)

theorem combines_extremaUpTo (hwidth : 0 < width) (hline : ∀ a ∈ values, Pixel.Ordered a) {i : Nat}
    {a : α} (ha : (extremaUpTo kind width values)[i]? = some a) :
    kind.Combines (values.extract (i / width * width) (i + 1)) a := by
  obtain ⟨hordered, hspec⟩ := extremaUpTo_spec kind width hline
  have hi : i < values.length := by
    rw [← length_extremaUpTo kind width values]
    exact (List.getElem?_eq_some_iff.mp ha).1
  apply combines_extract_of_attains hline (hordered a (List.mem_of_getElem? ha))
  intro t
  rw [← attains_of_getElem? ha, hspec]
  simp only [hi, true_and, le_and_div_eq_iff hwidth]

theorem combines_extremaFrom (hwidth : 0 < width) (hline : ∀ a ∈ values, Pixel.Ordered a) {i : Nat}
    {a : α} (ha : (extremaFrom kind width values)[i]? = some a) :
    kind.Combines (values.extract i (min ((i / width + 1) * width) values.length)) a := by
  obtain ⟨hordered, hspec⟩ := extremaFrom_spec kind width hline
  apply combines_extract_of_attains hline (hordered a (List.mem_of_getElem? ha))
  intro t
  rw [← attains_of_getElem? ha, hspec]
  apply exists_congr
  intro j
  rw [ge_and_div_eq_iff hwidth, Nat.lt_min, and_congr_left_iff]
  intro hj
  simp only [hj.lt_length, and_true]

theorem combines_window (hwidth : 0 < width) (hline : ∀ a ∈ values, Pixel.Ordered a) {k : Nat}
    (hk : k + width ≤ values.length) {first last : α}
    (hfirst : (extremaFrom kind width values)[k]? = some first)
    (hlast : (extremaUpTo kind width values)[k + width - 1]? = some last) :
    kind.Combines (values.extract k (k + width)) (kind.combine first last) := by
  obtain ⟨hordered, hspec⟩ := window_spec kind hwidth hline
  have hdrop : width - 1 + k = k + width - 1 := by omega
  have hwindow : (List.zipWith kind.combine (extremaFrom kind width values)
      ((extremaUpTo kind width values).drop (width - 1)))[k]? = some (kind.combine first last) := by
    rw [List.getElem?_zipWith, hfirst, List.getElem?_drop, hdrop, hlast]
  apply combines_extract_of_attains hline (hordered _ (List.mem_of_getElem? hwindow))
  intro t
  rw [← attains_of_getElem? hwindow, hspec]
  have hend : k + (width - 1) < values.length := by omega
  have hrange (j : Nat) : k ≤ j ∧ j ≤ k + (width - 1) ↔ k ≤ j ∧ j < k + width := by omega
  simp only [hend, true_and, hrange]

/-- For every line and width, whatever the buffers held before: no access fails, and afterwards they
hold at each position what its block combines up to there, and from there to the end of the block or
of the line. Where a window lies on the line, its two ends together hold exactly the window
combined. -/
theorem fill?_combines_blocks (kind : Kind) {width : Nat} (hwidth : 0 < width) (values : List α)
    (hline : ∀ a ∈ values, Pixel.Ordered a) (buffers : Buffers α) :
    ∃ filled, fill? kind width values buffers = some filled ∧
      filled = ⟨extremaUpTo kind width values, extremaFrom kind width values⟩ ∧
      (∀ i < values.length, ∃ a, filled.upTo[i]? = some a ∧
        kind.Combines (values.extract (i / width * width) (i + 1)) a) ∧
      (∀ i < values.length, ∃ a, filled.onward[i]? = some a ∧
        kind.Combines (values.extract i (min ((i / width + 1) * width) values.length)) a) ∧
      filled.upTo.length = values.length ∧ filled.onward.length = values.length ∧
      ∀ k, k + width ≤ values.length → ∃ first last, filled.onward[k]? = some first ∧
        filled.upTo[k + width - 1]? = some last ∧
        kind.Combines (values.extract k (k + width)) (kind.combine first last) := by
  have hupTo (i : Nat) (hi : i < values.length) :
      ∃ a, (extremaUpTo kind width values)[i]? = some a :=
    ⟨_, List.getElem?_eq_getElem (by rwa [length_extremaUpTo])⟩
  have honward (i : Nat) (hi : i < values.length) :
      ∃ a, (extremaFrom kind width values)[i]? = some a :=
    ⟨_, List.getElem?_eq_getElem (by rwa [length_extremaFrom])⟩
  refine ⟨_, fill?_eq kind width values buffers, rfl, ?_, ?_, length_extremaUpTo kind width values,
    length_extremaFrom kind width values, ?_⟩
  · intro i hi
    obtain ⟨a, ha⟩ := hupTo i hi
    exact ⟨a, ha, combines_extremaUpTo hwidth hline ha⟩
  · intro i hi
    obtain ⟨a, ha⟩ := honward i hi
    exact ⟨a, ha, combines_extremaFrom hwidth hline ha⟩
  · intro k hk
    obtain ⟨first, hfirst⟩ := honward k (by omega)
    obtain ⟨last, hlast⟩ := hupTo (k + width - 1) (by omega)
    exact ⟨first, last, hfirst, hlast, combines_window hwidth hline hk hfirst hlast⟩

/-- Five heights, over which the last block of width 3 stops short. -/
def skyline : List (Sample .u8) :=
  [4, 9, 3, 7, 2].map (Sample.nearest .u8)

/-- Left over from another line, longer on one side and empty on the other. -/
def usedBuffers : Buffers (Sample .u8) :=
  ⟨List.replicate 8 (Sample.nearest .u8 200), []⟩

theorem fill?_skyline_combines_blocks :
    0 < 3 ∧ (∀ a ∈ skyline, Pixel.Ordered a) ∧
      ∃ filled, fill? .dilation 3 skyline usedBuffers = some filled ∧
        filled.upTo.map Sample.val = [4, 9, 9, 7, 7] ∧
        filled.onward.map Sample.val = [9, 9, 3, 7, 2] ∧
        ∀ k, k + 3 ≤ skyline.length → ∃ first last, filled.onward[k]? = some first ∧
          filled.upTo[k + 3 - 1]? = some last ∧
          Kind.dilation.Combines (skyline.extract k (k + 3))
            (Kind.dilation.combine first last) := by
  have hordered : ∀ a ∈ skyline, Pixel.Ordered a := fun a _ => Sample.ordered a
  obtain ⟨filled, hfill, rfl, _, _, _, _, hwindows⟩ :=
    fill?_combines_blocks .dilation (Nat.succ_pos 2) skyline hordered usedBuffers
  exact ⟨Nat.succ_pos 2, hordered, _, hfill, by decide, by decide, hwindows⟩

end Morphology
