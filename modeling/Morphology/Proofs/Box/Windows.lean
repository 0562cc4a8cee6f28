import Mathlib.Algebra.Order.Group.Nat
import Morphology.Box
import Morphology.Proofs.Level

/-! Running extrema that start anew at every multiple of the width answer every window of that
width: a window is the end of one block and the beginning of the next. -/

namespace Morphology

variable {α : Type} [Pixel α] {kind : Kind} {width : Nat} {values : List α} {t : Int} {i j : Nat}

theorem succ_div_of_same_block (h : (i + 1) % width ≠ 0) : (i + 1) / width = i / width :=
  Nat.succ_div_of_not_dvd fun hdvd => h (Nat.mod_eq_zero_of_dvd hdvd)

theorem div_lt_of_new_block (h : (i + 1) % width = 0) (j : Nat) :
    i / width < (i + 1 + j) / width := by
  have hnext : (i + 1) / width = i / width + 1 := Nat.succ_div_of_dvd (Nat.dvd_of_mod_eq_zero h)
  have hlater : (i + 1) / width ≤ (i + 1 + j) / width := Nat.div_le_div_right (by omega)
  omega

/-- A position lies in the window that starts at another one exactly if it follows the start in the
block of the start, or precedes the end in the block of the end. -/
theorem mem_window_iff (hwidth : 0 < width) :
    i ≤ j ∧ j ≤ i + (width - 1) ↔
      (i ≤ j ∧ j / width = i / width) ∨
        (j ≤ i + (width - 1) ∧ j / width = (i + (width - 1)) / width) := by
  have hi := Nat.div_add_mod i width
  have hj := Nat.div_add_mod j width
  have hend := Nat.div_add_mod (i + (width - 1)) width
  have hmodi := Nat.mod_lt i hwidth
  have hmodj := Nat.mod_lt j hwidth
  have hmodend := Nat.mod_lt (i + (width - 1)) hwidth
  constructor
  · rintro ⟨hlow, hhigh⟩
    have hblocks : (i + (width - 1)) / width ≤ i / width + 1 := by
      rw [← Nat.add_div_right i hwidth]
      exact Nat.div_le_div_right (by omega)
    have hfirst : i / width ≤ j / width := Nat.div_le_div_right hlow
    have hlast : j / width ≤ (i + (width - 1)) / width := Nat.div_le_div_right hhigh
    omega
  · rintro (⟨hlow, hblock⟩ | ⟨hhigh, hblock⟩)
    · rw [hblock] at hj
      omega
    · rw [hblock] at hj
      omega

/-! ## Positions that attain a threshold -/

/-- The element at a position is at least as high as a threshold. -/
def Attains (kind : Kind) (t : Int) (values : List α) (i : Nat) : Prop :=
  ∃ a, values[i]? = some a ∧ t ≤ kind.level a

theorem attains_of_getElem? {a : α} (h : values[i]? = some a) :
    Attains kind t values i ↔ t ≤ kind.level a := by
  simp [Attains, h]

@[simp] theorem attains_nil : ¬ Attains kind t ([] : List α) i := by
  simp [Attains]

@[simp] theorem attains_cons_zero {a : α} : Attains kind t (a :: values) 0 ↔ t ≤ kind.level a := by
  simp [Attains]

@[simp] theorem attains_cons_succ {a : α} :
    Attains kind t (a :: values) (i + 1) ↔ Attains kind t values i := by
  simp [Attains]

theorem Attains.lt_length (h : Attains kind t values i) : i < values.length := by
  obtain ⟨a, ha, _⟩ := h
  exact (List.getElem?_eq_some_iff.mp ha).1

theorem attains_append {xs ys : List α} :
    Attains kind t (xs ++ ys) i ↔
      Attains kind t xs i ∨ xs.length ≤ i ∧ Attains kind t ys (i - xs.length) := by
  by_cases hi : i < xs.length
  · have hout : ¬ xs.length ≤ i := by omega
    simp only [Attains, List.getElem?_append_left hi, hout, false_and, or_false]
  · have hin : xs.length ≤ i := by omega
    simp only [Attains, List.getElem?_append_right hin, List.getElem?_eq_none hin, hin, true_and,
      reduceCtorEq, false_and, exists_false, false_or]

theorem attains_replicate {m : Nat} {a : α} :
    Attains kind t (List.replicate m a) i ↔ i < m ∧ t ≤ kind.level a := by
  by_cases hi : i < m <;> simp [Attains, hi]

theorem attains_drop {m : Nat} :
    Attains kind t (values.drop m) i ↔ Attains kind t values (m + i) := by
  simp only [Attains, List.getElem?_drop]

theorem ordered_zipWith_combine (kind : Kind) {xs : List α} (hxs : ∀ a ∈ xs, Pixel.Ordered a)
    (ys : List α) : ∀ a ∈ List.zipWith kind.combine xs ys, Pixel.Ordered a := by
  induction xs generalizing ys with
  | nil => simp
  | cons x xs ih =>
      cases ys with
      | nil => simp
      | cons y ys =>
          rw [List.forall_mem_cons] at hxs
          exact List.forall_mem_cons.mpr ⟨Kind.ordered_combine hxs.1, ih hxs.2 ys⟩

theorem attains_zipWith_combine {xs ys : List α} (hxs : ∀ a ∈ xs, Pixel.Ordered a)
    (hys : ∀ a ∈ ys, Pixel.Ordered a) :
    Attains kind t (List.zipWith kind.combine xs ys) i ↔
      (i < xs.length ∧ i < ys.length) ∧ (Attains kind t xs i ∨ Attains kind t ys i) := by
  induction xs generalizing ys i with
  | nil => simp
  | cons x xs ih =>
      cases ys with
      | nil => simp
      | cons y ys =>
          rw [List.forall_mem_cons] at hxs hys
          cases i with
          | zero => simp [Kind.level_combine hxs.1 hys.1]
          | succ i => simpa using ih hxs.2 hys.2

theorem exists_attains_cons {P : Nat → Prop} {a : α} :
    (∃ j, P j ∧ Attains kind t (a :: values) j) ↔
      (P 0 ∧ t ≤ kind.level a) ∨ ∃ j, P (j + 1) ∧ Attains kind t values j := by
  rw [← Nat.or_exists_add_one]
  simp only [attains_cons_zero, attains_cons_succ]

/-! ## Running extrema -/

theorem exists_extremaFrom_go_cons (kind : Kind) (width position : Nat) (x : α) (values : List α) :
    ∃ value, extremaFrom.go kind width position (x :: values) =
        value :: extremaFrom.go kind width (position + 1) values ∧
      ((extremaFrom.go kind width (position + 1) values)[0]? = none → value = x) ∧
      ∀ next, (extremaFrom.go kind width (position + 1) values)[0]? = some next →
        value = if (position + 1) % width = 0 then x else kind.combine next x := by
  rw [extremaFrom.go]
  cases extremaFrom.go kind width (position + 1) values with
  | nil => exact ⟨x, rfl, fun _ => rfl, fun _ h => by simp at h⟩
  | cons next rest => exact ⟨_, rfl, fun h => by simp at h, fun _ h => by cases h; rfl⟩

theorem extremaFrom_go_cons {x : α} (hx : Pixel.Ordered x) {position : Nat}
    (h : ∀ a ∈ extremaFrom.go kind width (position + 1) values, Pixel.Ordered a) :
    ∃ value, extremaFrom.go kind width position (x :: values) =
        value :: extremaFrom.go kind width (position + 1) values ∧
      Pixel.Ordered value ∧ ∀ t, t ≤ kind.level value ↔ t ≤ kind.level x ∨
        (position + 1) % width ≠ 0 ∧
          Attains kind t (extremaFrom.go kind width (position + 1) values) 0 := by
  obtain ⟨value, hgo, hlast, hnext⟩ := exists_extremaFrom_go_cons kind width position x values
  refine ⟨value, hgo, ?_⟩
  cases hfirst : (extremaFrom.go kind width (position + 1) values)[0]? with
  | none =>
      rw [hlast hfirst]
      exact ⟨hx, fun t => by simp [Attains, hfirst]⟩
  | some next =>
      have hordered : Pixel.Ordered next := h next (List.mem_of_getElem? hfirst)
      by_cases hstart : (position + 1) % width = 0
      · rw [hnext next hfirst, if_pos hstart]
        exact ⟨hx, fun t => by simp [hstart]⟩
      · rw [hnext next hfirst, if_neg hstart]
        refine ⟨Kind.ordered_combine hordered, ?_⟩
        intro t
        rw [Kind.level_combine hordered hx, le_max_iff, attains_of_getElem? hfirst, or_comm]
        simp [hstart]

theorem extremaFrom_go_spec (h : ∀ a ∈ values, Pixel.Ordered a) (position : Nat) :
    (∀ a ∈ extremaFrom.go kind width position values, Pixel.Ordered a) ∧
      ∀ t i, Attains kind t (extremaFrom.go kind width position values) i ↔
        ∃ j, (i ≤ j ∧ (position + j) / width = (position + i) / width) ∧
          Attains kind t values j := by
  induction values generalizing position with
  | nil => simp [extremaFrom.go]
  | cons x xs ih =>
      obtain ⟨hordered, hattains⟩ := ih (fun a ha => h a (by simp [ha])) (position + 1)
      obtain ⟨value, hgo, hvalue, hlevel⟩ := extremaFrom_go_cons (h x (by simp)) hordered
      have hshift (j : Nat) : position + 1 + j = position + (j + 1) := by omega
      rw [hgo]
      refine ⟨List.forall_mem_cons.mpr ⟨hvalue, hordered⟩, ?_⟩
      intro t i
      rw [exists_attains_cons]
      cases i with
      | zero =>
          rw [attains_cons_zero, hlevel, hattains]
          by_cases hstart : (position + 1) % width = 0
          · have hnone (j : Nat) : (position + (j + 1)) / width ≠ position / width := by
              have hlater := div_lt_of_new_block hstart j
              rw [hshift] at hlater
              exact hlater.ne'
            simp [hstart, hnone]
          · simp [hstart, hshift, succ_div_of_same_block hstart]
      | succ i =>
          rw [attains_cons_succ, hattains]
          simp [hshift]

theorem length_extremaFrom (kind : Kind) (width : Nat) (values : List α) :
    (extremaFrom kind width values).length = values.length := by
  have hgo (position : Nat) :
      (extremaFrom.go kind width position values).length = values.length := by
    induction values generalizing position with
    | nil => rfl
    | cons x xs ih =>
        obtain ⟨value, hcons, _⟩ := exists_extremaFrom_go_cons kind width position x xs
        rw [hcons, List.length_cons, List.length_cons, ih]
  exact hgo 0

theorem extremaFrom_spec (kind : Kind) (width : Nat) (h : ∀ a ∈ values, Pixel.Ordered a) :
    (∀ a ∈ extremaFrom kind width values, Pixel.Ordered a) ∧
      ∀ t i, Attains kind t (extremaFrom kind width values) i ↔
        ∃ j, (i ≤ j ∧ j / width = i / width) ∧ Attains kind t values j := by
  simpa only [extremaFrom, Nat.zero_add] using extremaFrom_go_spec h 0

theorem extremaUpTo_go_cons (kind : Kind) (width position : Nat) (values : List α) {x previous : α}
    (hx : Pixel.Ordered x) (hprevious : Pixel.Ordered previous) :
    ∃ value, extremaUpTo.go kind width position previous (x :: values) =
        value :: extremaUpTo.go kind width (position + 1) value values ∧
      Pixel.Ordered value ∧ ∀ t, t ≤ kind.level value ↔
        position % width ≠ 0 ∧ t ≤ kind.level previous ∨ t ≤ kind.level x := by
  rw [extremaUpTo.go]
  by_cases hstart : position % width = 0
  · exact ⟨x, by simp [hstart], hx, fun t => by simp [hstart]⟩
  · refine ⟨kind.combine previous x, by simp [hstart], Kind.ordered_combine hprevious, ?_⟩
    intro t
    rw [Kind.level_combine hprevious hx, le_max_iff]
    simp [hstart]

theorem extremaUpTo_go_spec (kind : Kind) (width position : Nat) {previous : α}
    (hprevious : Pixel.Ordered previous) (h : ∀ a ∈ values, Pixel.Ordered a) :
    (∀ a ∈ extremaUpTo.go kind width (position + 1) previous values, Pixel.Ordered a) ∧
      ∀ t i,
        Attains kind t (previous :: extremaUpTo.go kind width (position + 1) previous values) i ↔
          i ≤ values.length ∧ ∃ j, (j ≤ i ∧ (position + j) / width = (position + i) / width) ∧
            Attains kind t (previous :: values) j := by
  induction values generalizing previous position with
  | nil =>
      refine ⟨by simp [extremaUpTo.go], ?_⟩
      intro t i
      rw [exists_attains_cons]
      cases i <;> simp [extremaUpTo.go]
  | cons x xs ih =>
      obtain ⟨value, hgo, hvalue, hlevel⟩ :=
        extremaUpTo_go_cons kind width (position + 1) xs (h x (by simp)) hprevious
      obtain ⟨hordered, hattains⟩ := ih (position + 1) hvalue fun a ha => h a (by simp [ha])
      have hshift (j : Nat) : position + 1 + j = position + (j + 1) := by omega
      rw [hgo]
      refine ⟨List.forall_mem_cons.mpr ⟨hvalue, hordered⟩, ?_⟩
      intro t i
      cases i with
      | zero =>
          rw [exists_attains_cons]
          simp
      | succ i =>
          rw [attains_cons_succ, hattains, exists_attains_cons, exists_attains_cons,
            exists_attains_cons, hlevel]
          by_cases hstart : (position + 1) % width = 0
          · have hnone := div_lt_of_new_block hstart i
            rw [hshift] at hnone
            simp [hstart, hshift, hnone.ne]
          · simp [hstart, hshift, succ_div_of_same_block hstart, and_or_left, or_assoc]

theorem length_extremaUpTo (kind : Kind) (width : Nat) (values : List α) :
    (extremaUpTo kind width values).length = values.length := by
  have hgo (position : Nat) (previous : α) (rest : List α) :
      (extremaUpTo.go kind width position previous rest).length = rest.length := by
    induction rest generalizing position previous with
    | nil => rfl
    | cons x xs ih => simp [extremaUpTo.go, ih]
  cases values with
  | nil => rfl
  | cons x xs => simp [extremaUpTo, hgo]

theorem extremaUpTo_spec (kind : Kind) (width : Nat) (h : ∀ a ∈ values, Pixel.Ordered a) :
    (∀ a ∈ extremaUpTo kind width values, Pixel.Ordered a) ∧
      ∀ t i, Attains kind t (extremaUpTo kind width values) i ↔
        i < values.length ∧ ∃ j, (j ≤ i ∧ j / width = i / width) ∧ Attains kind t values j := by
  cases values with
  | nil => simp [extremaUpTo]
  | cons x xs =>
      have hx : Pixel.Ordered x := h x (by simp)
      have hxs : ∀ a ∈ xs, Pixel.Ordered a := fun a ha => h a (by simp [ha])
      obtain ⟨hordered, hattains⟩ := extremaUpTo_go_spec kind width 0 hx hxs
      refine ⟨List.forall_mem_cons.mpr ⟨hx, hordered⟩, ?_⟩
      simpa only [extremaUpTo, Nat.zero_add, List.length_cons, Nat.lt_succ_iff] using hattains

/-! ## Windows of a line -/

/-- What follows in the block of a window's first position and what precedes in the block of its
last one together cover exactly the window. -/
theorem window_spec (kind : Kind) (hwidth : 0 < width) (h : ∀ a ∈ values, Pixel.Ordered a) :
    let windows := List.zipWith kind.combine (extremaFrom kind width values)
      ((extremaUpTo kind width values).drop (width - 1))
    (∀ a ∈ windows, Pixel.Ordered a) ∧
      ∀ t i, Attains kind t windows i ↔
        i + (width - 1) < values.length ∧
          ∃ j, (i ≤ j ∧ j ≤ i + (width - 1)) ∧ Attains kind t values j := by
  intro windows
  obtain ⟨hfromOrdered, hfrom⟩ := extremaFrom_spec kind width h
  obtain ⟨hupToOrdered, hupTo⟩ := extremaUpTo_spec kind width h
  have hdropOrdered : ∀ a ∈ (extremaUpTo kind width values).drop (width - 1), Pixel.Ordered a :=
    fun a ha => hupToOrdered a (List.mem_of_mem_drop ha)
  refine ⟨ordered_zipWith_combine kind hfromOrdered _, ?_⟩
  intro t i
  rw [attains_zipWith_combine hfromOrdered hdropOrdered, attains_drop, hfrom,
    Nat.add_comm (width - 1), hupTo, List.length_drop, length_extremaFrom, length_extremaUpTo]
  have hlengths : i < values.length ∧ i < values.length - (width - 1) ↔
      i + (width - 1) < values.length := by
    omega
  rw [hlengths, and_congr_right_iff]
  intro hend
  simp only [hend, true_and, mem_window_iff hwidth, or_and_right, exists_or]

theorem length_filterLine (kind : Kind) (radius : Nat) (values : List α) :
    (filterLine kind radius values).length = values.length := by
  simp [filterLine, length_extremaFrom, length_extremaUpTo]
  omega

theorem attains_padded {margin : Nat} {a : α} :
    Attains kind t (List.replicate margin a ++ values ++ List.replicate margin a) i ↔
      (margin ≤ i ∧ Attains kind t values (i - margin)) ∨
        (i < margin ∨ margin + values.length ≤ i ∧ i < 2 * margin + values.length) ∧
          t ≤ kind.level a := by
  simp only [attains_append, attains_replicate, List.length_append, List.length_replicate]
  constructor
  · rintro ((⟨hlow, ha⟩ | ⟨hlow, hline⟩) | ⟨hhigh, hend, ha⟩)
    · exact .inr ⟨.inl hlow, ha⟩
    · exact .inl ⟨hlow, hline⟩
    · exact .inr ⟨.inr ⟨hhigh, by omega⟩, ha⟩
  · rintro (⟨hlow, hline⟩ | ⟨hlow | ⟨hhigh, hend⟩, ha⟩)
    · exact .inl (.inr ⟨hlow, hline⟩)
    · exact .inl (.inl ⟨hlow, ha⟩)
    · exact .inr ⟨hhigh, by omega, ha⟩

theorem ordered_padded (margin : Nat) {a : α} (h : ∀ b ∈ values, Pixel.Ordered b)
    (ha : Pixel.Ordered a) :
    ∀ b ∈ List.replicate margin a ++ values ++ List.replicate margin a, Pixel.Ordered b := by
  intro b hb
  simp only [List.mem_append, List.mem_replicate] at hb
  rcases hb with (⟨_, rfl⟩ | hb) | ⟨_, rfl⟩
  · exact ha
  · exact h b hb
  · exact ha

/-- The windows of a line cover exactly the elements of the line within the radius, and the identity
in the margins where fewer elements than the radius precede or follow. -/
theorem filterLine_spec (kind : Kind) (radius : Nat) (h : ∀ a ∈ values, Pixel.Ordered a)
    (hidentity : Pixel.Ordered (kind.identity : α)) :
    (∀ a ∈ filterLine kind radius values, Pixel.Ordered a) ∧
      ∀ t i, Attains kind t (filterLine kind radius values) i ↔
        i < values.length ∧
          ((∃ j, (i ≤ j + radius ∧ j ≤ i + radius) ∧ Attains kind t values j) ∨
            (i < radius ∨ values.length ≤ i + radius) ∧
              t ≤ kind.level (kind.identity : α)) := by
  have hpadded := ordered_padded radius h hidentity
  obtain ⟨hordered, hwindow⟩ := window_spec kind (Nat.succ_pos (2 * radius)) hpadded
  refine ⟨hordered, ?_⟩
  intro t i
  have hlength : i + (2 * radius + 1 - 1) <
      (List.replicate radius (kind.identity : α) ++ values ++
        List.replicate radius (kind.identity : α)).length ↔ i < values.length := by
    simp only [List.length_append, List.length_replicate]
    omega
  rw [filterLine, hwindow, hlength, and_congr_right_iff]
  intro hi
  constructor
  · rintro ⟨j, ⟨hlow, hhigh⟩, hj⟩
    rcases attains_padded.mp hj with ⟨hmargin, hline⟩ | ⟨hmargin, ht⟩
    · exact .inl ⟨j - radius, by omega, hline⟩
    · exact .inr ⟨by omega, ht⟩
  · rintro (⟨j, ⟨hlow, hhigh⟩, hj⟩ | ⟨hbefore | hafter, ht⟩)
    · refine ⟨j + radius, by omega, attains_padded.mpr (.inl ⟨by omega, ?_⟩)⟩
      rwa [Nat.add_sub_cancel]
    · exact ⟨i, by omega, attains_padded.mpr (.inr ⟨.inl hbefore, ht⟩)⟩
    · exact ⟨i + 2 * radius, by omega, attains_padded.mpr (.inr ⟨.inr (by omega), ht⟩)⟩

end Morphology
