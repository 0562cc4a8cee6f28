import Mathlib.Logic.Function.Basic
import Mathlib.Order.MinMax
import Morphology.Kind
import Morphology.Pixel.Float
import Morphology.Pixel.Sample

/-! Both kinds of propagation raise values along one line of integers: ranks as they are for a
dilation, and turned round for an erosion. What holds of levels holds of both kinds. -/

namespace Morphology

variable {α : Type} [Pixel α]

theorem Pixel.ordered_of_lt {a b : α} (h : Pixel.lt a b = true) :
    Pixel.Ordered a ∧ Pixel.Ordered b := by
  cases ha : Pixel.rank a <;> cases hb : Pixel.rank b <;> simp_all [Pixel.lt, Pixel.Ordered]

namespace Kind

def level (kind : Kind) (a : α) : Int :=
  match kind with
  | dilation => (Pixel.rank a).getD 0
  | erosion => -(Pixel.rank a).getD 0

theorem combine_eq (kind : Kind) (a b : α) :
    kind.combine a b = if kind.precedes a b then b else a := by
  cases kind <;> rfl

theorem clamp_eq (kind : Kind) (a b : α) :
    kind.clamp a b = if kind.precedes b a then b else a := by
  cases kind <;> rfl

variable {kind : Kind} {a b : α}

theorem precedes_iff (ha : Pixel.Ordered a) (hb : Pixel.Ordered b) :
    kind.precedes a b = true ↔ kind.level a < kind.level b := by
  obtain ⟨x, hx⟩ := Option.isSome_iff_exists.mp ha
  obtain ⟨y, hy⟩ := Option.isSome_iff_exists.mp hb
  cases kind with
  | dilation => simp [precedes, level, Pixel.lt_eq_decide hx hy, hx, hy]
  | erosion => simp [precedes, level, Pixel.lt_eq_decide hy hx, hx, hy]

theorem respects_iff (ha : Pixel.Ordered a) (hb : Pixel.Ordered b) :
    kind.respects a b = true ↔ kind.level a ≤ kind.level b := by
  obtain ⟨x, hx⟩ := Option.isSome_iff_exists.mp ha
  obtain ⟨y, hy⟩ := Option.isSome_iff_exists.mp hb
  cases kind with
  | dilation => simp [respects, level, Pixel.le_eq_decide hx hy, hx, hy]
  | erosion => simp [respects, level, Pixel.le_eq_decide hy hx, hx, hy]

theorem le_iff (ha : Pixel.Ordered a) (hb : Pixel.Ordered b) :
    Pixel.le a b = true ↔ dilation.level a ≤ dilation.level b :=
  @respects_iff _ _ dilation a b ha hb

theorem eq_iff (kind : Kind) (ha : Pixel.Ordered a) (hb : Pixel.Ordered b) :
    Pixel.eq a b = true ↔ kind.level a = kind.level b := by
  obtain ⟨x, hx⟩ := Option.isSome_iff_exists.mp ha
  obtain ⟨y, hy⟩ := Option.isSome_iff_exists.mp hb
  cases kind <;> simp [level, Pixel.eq_eq_decide hx hy, hx, hy]

theorem ordered_of_precedes (h : kind.precedes a b = true) :
    Pixel.Ordered a ∧ Pixel.Ordered b := by
  cases kind with
  | dilation => exact Pixel.ordered_of_lt h
  | erosion => exact (Pixel.ordered_of_lt h).symm

theorem ordered_combine (ha : Pixel.Ordered a) : Pixel.Ordered (kind.combine a b) := by
  rw [combine_eq]
  split
  · next h => exact (ordered_of_precedes h).2
  · exact ha

theorem ordered_clamp (ha : Pixel.Ordered a) : Pixel.Ordered (kind.clamp a b) := by
  rw [clamp_eq]
  split
  · next h => exact (ordered_of_precedes h).1
  · exact ha

theorem level_combine (ha : Pixel.Ordered a) (hb : Pixel.Ordered b) :
    kind.level (kind.combine a b) = max (kind.level a) (kind.level b) := by
  rw [combine_eq]
  split
  · next h => exact (max_eq_right ((precedes_iff ha hb).mp h).le).symm
  · next h => exact (max_eq_left (not_lt.mp fun hlt => h ((precedes_iff ha hb).mpr hlt))).symm

theorem level_clamp (ha : Pixel.Ordered a) (hb : Pixel.Ordered b) :
    kind.level (kind.clamp a b) = min (kind.level a) (kind.level b) := by
  rw [clamp_eq]
  split
  · next h => exact (min_eq_right ((precedes_iff hb ha).mp h).le).symm
  · next h => exact (min_eq_left (not_lt.mp fun hlt => h ((precedes_iff hb ha).mpr hlt))).symm

theorem level_opposite (kind : Kind) (a : α) : kind.opposite.level a = -kind.level a := by
  cases kind with
  | dilation => rfl
  | erosion => exact (Int.neg_neg _).symm

/-! ## Many values -/

theorem ordered_foldl_combine (kind : Kind) (values : List α) (ha : Pixel.Ordered a) :
    Pixel.Ordered (values.foldl kind.combine a) := by
  induction values generalizing a with
  | nil => exact ha
  | cons v values ih => exact ih (ordered_combine ha)

theorem le_level_foldl_combine_iff (kind : Kind) {values : List α}
    (h : ∀ v ∈ values, Pixel.Ordered v) (ha : Pixel.Ordered a) {t : Int} :
    t ≤ kind.level (values.foldl kind.combine a) ↔
      t ≤ kind.level a ∨ ∃ v ∈ values, t ≤ kind.level v := by
  induction values generalizing a with
  | nil => simp
  | cons v values ih =>
      have hv : Pixel.Ordered v := h v (by simp)
      rw [List.foldl_cons, ih (fun w hw => h w (by simp [hw])) (ordered_combine ha),
        level_combine ha hv, le_max_iff, or_assoc]
      simp only [List.mem_cons, exists_eq_or_imp]

theorem ordered_foldl_clamp (kind : Kind) (values : List α) (ha : Pixel.Ordered a) :
    Pixel.Ordered (values.foldl kind.clamp a) := by
  induction values generalizing a with
  | nil => exact ha
  | cons v values ih => exact ih (ordered_clamp ha)

theorem le_level_foldl_clamp_iff (kind : Kind) {values : List α}
    (h : ∀ v ∈ values, Pixel.Ordered v) (ha : Pixel.Ordered a) {t : Int} :
    t ≤ kind.level (values.foldl kind.clamp a) ↔
      t ≤ kind.level a ∧ ∀ v ∈ values, t ≤ kind.level v := by
  induction values generalizing a with
  | nil => simp
  | cons v values ih =>
      have hv : Pixel.Ordered v := h v (by simp)
      rw [List.foldl_cons, ih (fun w hw => h w (by simp [hw])) (ordered_clamp ha),
        level_clamp ha hv, le_min_iff, and_assoc]
      simp only [List.mem_cons, forall_eq_or_imp]

end Kind

/-! ## Values between the least and the greatest -/

theorem Pixel.ordered_of_le {a b : α} (h : Pixel.le a b = true) :
    Pixel.Ordered a ∧ Pixel.Ordered b := by
  cases ha : Pixel.rank a <;> cases hb : Pixel.rank b <;>
    simp_all [Pixel.le, Pixel.lt, Pixel.eq, Pixel.Ordered]

theorem Kind.ordered_of_respects {kind : Kind} {a b : α} (h : kind.respects a b = true) :
    Pixel.Ordered a ∧ Pixel.Ordered b := by
  cases kind with
  | dilation => exact Pixel.ordered_of_le h
  | erosion => exact (Pixel.ordered_of_le h).symm

/-- The least and the greatest finite value bound it. -/
structure Bounded (a : α) : Prop where
  low : Pixel.le Pixel.minValue a = true
  high : Pixel.le a Pixel.maxValue = true

theorem bounded_sample {r : IntRange} (a : Sample r) : Bounded a := by
  constructor
  · rw [Pixel.le_eq_decide (Sample.rank_eq _) (Sample.rank_eq _), Sample.minValue_val]
    exact decide_eq_true a.lo_le
  · rw [Pixel.le_eq_decide (Sample.rank_eq _) (Sample.rank_eq _), Sample.maxValue_val]
    exact decide_eq_true a.le_hi

theorem bounded_number_iff {f : BinaryFormat} {negative : Bool} {magnitude : Fin (f.infinity + 1)} :
    Bounded (Binary.number negative magnitude) ↔ magnitude.val < f.infinity := by
  have hpos := f.infinity_pos
  have hlow : Pixel.rank (Pixel.minValue : Binary f) = some (-((f.infinity - 1 : Nat) : Int)) := rfl
  have hhigh : Pixel.rank (Pixel.maxValue : Binary f) = some ((f.infinity - 1 : Nat) : Int) := rfl
  have hrank := Binary.rank_number negative magnitude
  have hbetween : Bounded (Binary.number negative magnitude) ↔
      Pixel.le Pixel.minValue (Binary.number negative magnitude) = true ∧
        Pixel.le (Binary.number negative magnitude) Pixel.maxValue = true :=
    ⟨fun h => ⟨h.low, h.high⟩, fun h => ⟨h.1, h.2⟩⟩
  rw [hbetween, Pixel.le_eq_decide hlow hrank, Pixel.le_eq_decide hrank hhigh, decide_eq_true_iff,
    decide_eq_true_iff]
  cases negative with
  | false =>
      rw [if_neg Bool.false_ne_true]
      omega
  | true =>
      rw [if_pos rfl]
      omega

theorem Bounded.ordered {a : α} (h : Bounded a) : Pixel.Ordered a :=
  (Pixel.ordered_of_le h.low).2

theorem Bounded.ordered_identity {a : α} (h : Bounded a) (kind : Kind) :
    Pixel.Ordered (kind.identity : α) := by
  cases kind with
  | dilation => exact (Pixel.ordered_of_le h.low).1
  | erosion => exact (Pixel.ordered_of_le h.high).2

theorem Bounded.level_identity_le {a : α} (h : Bounded a) (kind : Kind) :
    kind.level (kind.identity : α) ≤ kind.level a := by
  rw [← Kind.respects_iff (h.ordered_identity kind) h.ordered]
  cases kind with
  | dilation => exact h.low
  | erosion => exact h.high

theorem Bounded.of_level_eq {a b : α} (h : Bounded a) (hb : Pixel.Ordered b) {kind : Kind}
    (hlevel : kind.level b = kind.level a) : Bounded b := by
  have hsame : Kind.dilation.level b = Kind.dilation.level a :=
    (Kind.eq_iff .dilation hb h.ordered).mp ((Kind.eq_iff kind hb h.ordered).mpr hlevel)
  have hlow : Pixel.Ordered (Pixel.minValue : α) := h.ordered_identity .dilation
  have hhigh : Pixel.Ordered (Pixel.maxValue : α) := h.ordered_identity .erosion
  constructor
  · rw [Kind.le_iff hlow hb, hsame, ← Kind.le_iff hlow h.ordered]
    exact h.low
  · rw [Kind.le_iff hb hhigh, hsame, ← Kind.le_iff h.ordered hhigh]
    exact h.high

/-! ## Levels of all elements -/

variable {n : Nat}

def AllOrdered (v : Vector α n) : Prop :=
  ∀ i, Pixel.Ordered (v.get i)

theorem allOrdered_sample {r : IntRange} (v : Vector (Sample r) n) : AllOrdered v :=
  fun i => Sample.ordered (v.get i)

def AllBounded (v : Vector α n) : Prop :=
  ∀ i, Bounded (v.get i)

theorem AllBounded.allOrdered {v : Vector α n} (h : AllBounded v) : AllOrdered v :=
  fun i => (h i).ordered

theorem allBounded_sample {r : IntRange} (v : Vector (Sample r) n) : AllBounded v :=
  fun i => bounded_sample (v.get i)

def levels (kind : Kind) (v : Vector α n) : Fin n → Int :=
  fun i => kind.level (v.get i)

theorem levels_dilation_sample {r : IntRange} (v : Vector (Sample r) n) (i : Fin n) :
    levels .dilation v i = (v.get i).val := rfl

theorem levels_erosion_sample {r : IntRange} (v : Vector (Sample r) n) (i : Fin n) :
    levels .erosion v i = -(v.get i).val := rfl

/-- The same values up to `Pixel.eq`. -/
def SameValues (v w : Vector α n) : Prop :=
  ∀ i, Pixel.eq (v.get i) (w.get i) = true

theorem sameValues_iff (kind : Kind) {v w : Vector α n} (hv : AllOrdered v) (hw : AllOrdered w) :
    SameValues v w ↔ levels kind v = levels kind w := by
  rw [funext_iff]
  exact forall_congr' fun i => Kind.eq_iff kind (hv i) (hw i)

/-- Levels are told apart by their thresholds. -/
theorem sameValues_of_thresholds (kind : Kind) {v w : Vector α n} (hv : AllOrdered v)
    (hw : AllOrdered w) (h : ∀ t i, t ≤ levels kind v i ↔ t ≤ levels kind w i) :
    SameValues v w := by
  rw [sameValues_iff kind hv hw]
  funext i
  exact le_antisymm ((h _ i).mp le_rfl) ((h _ i).mpr le_rfl)

omit [Pixel α] in
theorem ext_get {v w : Vector α n} (h : ∀ i, v.get i = w.get i) : v = w :=
  Vector.ext fun i hi => h ⟨i, hi⟩

theorem eq_of_sameValues {r : IntRange} {v w : Vector (Sample r) n} (h : SameValues v w) :
    v = w := by
  apply ext_get
  intro i
  have hlevel := (Kind.eq_iff .dilation (Sample.ordered _) (Sample.ordered _)).mp (h i)
  exact Sample.ext hlevel

theorem eq_of_levels_eq {r : IntRange} (kind : Kind) {v w : Vector (Sample r) n}
    (h : levels kind v = levels kind w) : v = w :=
  eq_of_sameValues ((sameValues_iff kind (allOrdered_sample v) (allOrdered_sample w)).mpr h)

theorem eq_of_thresholds {r : IntRange} (kind : Kind) {v w : Vector (Sample r) n}
    (h : ∀ t i, t ≤ levels kind v i ↔ t ≤ levels kind w i) : v = w :=
  eq_of_sameValues
    (sameValues_of_thresholds kind (allOrdered_sample v) (allOrdered_sample w) h)

theorem ordered_of_mem_map {v : Vector α n} (hv : AllOrdered v) {indices : List (Fin n)} {a : α}
    (h : a ∈ indices.map v.get) : Pixel.Ordered a := by
  obtain ⟨i, _, rfl⟩ := List.mem_map.mp h
  exact hv i

omit [Pixel α] in
theorem get_set (v : Vector α n) (i j : Fin n) (a : α) :
    (v.set i a i.isLt).get j = if j = i then a else v.get j := by
  change (v.set i a i.isLt)[(j : Nat)] = if j = i then a else v[(j : Nat)]
  rw [Vector.getElem_set]
  simp only [Fin.ext_iff, eq_comm]

omit [Pixel α] in
theorem get_ofFn (f : Fin n → α) (i : Fin n) : (Vector.ofFn f).get i = f i :=
  Vector.getElem_ofFn i.isLt

omit [Pixel α] in
theorem get_map {β : Type} (f : α → β) (v : Vector α n) (i : Fin n) :
    (v.map f).get i = f (v.get i) :=
  Vector.getElem_map f i.isLt

omit [Pixel α] in
theorem get_zipWith {β γ : Type} (f : α → β → γ) (v : Vector α n) (w : Vector β n) (i : Fin n) :
    (v.zipWith f w).get i = f (v.get i) (w.get i) :=
  Vector.getElem_zipWith i.isLt

theorem allOrdered_zipWith_combine (kind : Kind) {v : Vector α n} (hv : AllOrdered v)
    (w : Vector α n) : AllOrdered (v.zipWith kind.combine w) := by
  intro i
  rw [get_zipWith]
  exact Kind.ordered_combine (hv i)

theorem levels_zipWith_combine (kind : Kind) {v w : Vector α n} (hv : AllOrdered v)
    (hw : AllOrdered w) :
    levels kind (v.zipWith kind.combine w) = fun i => max (levels kind v i) (levels kind w i) := by
  funext i
  rw [levels, get_zipWith]
  exact Kind.level_combine (hv i) (hw i)

omit [Pixel α] in
theorem mem_toList_iff_exists_get (v : Vector α n) {a : α} : a ∈ v.toList ↔ ∃ i, v.get i = a := by
  rw [Vector.mem_toList_iff, Vector.mem_iff_getElem]
  constructor
  · rintro ⟨i, hi, ha⟩
    exact ⟨⟨i, hi⟩, ha⟩
  · rintro ⟨i, ha⟩
    exact ⟨i, i.isLt, ha⟩

theorem allOrdered_set {v : Vector α n} {a : α} (hv : AllOrdered v) (ha : Pixel.Ordered a)
    (i : Fin n) : AllOrdered (v.set i a i.isLt) := by
  intro j
  rw [get_set]
  split
  · exact ha
  · exact hv j

theorem levels_set (kind : Kind) (v : Vector α n) (i : Fin n) (a : α) :
    levels kind (v.set i a i.isLt) = Function.update (levels kind v) i (kind.level a) := by
  funext j
  rw [levels, get_set, Function.update_apply]
  split <;> rfl

omit [Pixel α] in
/-- Passes that each touch only the elements of their own part, and read no others, do the same one
after the other as each alone. -/
theorem get_foldl_of_parts {κ : Type} [DecidableEq κ] {f : Vector α n → κ → Vector α n}
    (part : Fin n → κ) {parts : List κ} (hnodup : parts.Nodup)
    (hframe : ∀ v, ∀ s ∈ parts, ∀ p, part p ≠ s → (f v s).get p = v.get p)
    (hlocal : ∀ v w, ∀ s ∈ parts, (∀ p, part p = s → v.get p = w.get p) →
      ∀ p, part p = s → (f v s).get p = (f w s).get p)
    (v : Vector α n) (p : Fin n) :
    (parts.foldl f v).get p = if part p ∈ parts then (f v (part p)).get p else v.get p := by
  induction parts generalizing v with
  | nil => rfl
  | cons s rest ih =>
      obtain ⟨hnew, hrest⟩ := List.nodup_cons.mp hnodup
      rw [List.foldl_cons, ih hrest (fun v r hr => hframe v r (by simp [hr]))
        (fun v w r hr => hlocal v w r (by simp [hr]))]
      by_cases hs : part p = s
      · rw [if_neg (hs ▸ hnew), if_pos (by simp [hs]), hs]
      · have hmem : part p ∈ s :: rest ↔ part p ∈ rest := by simp [hs]
        simp only [hmem]
        split
        · next hp =>
            apply hlocal _ _ (part p) (by simp [hp]) _ p rfl
            intro q hq
            exact hframe v s (by simp) q fun hqs => hs (hq.symm.trans hqs)
        · exact hframe v s (by simp) p hs

end Morphology
