import Mathlib.Data.List.Nodup
import Morphology.Proofs.Box.Filtered
import Morphology.Proofs.Box.Windows

/-! The lines of a grid along one axis share no element, so filtering them one after the other
filters each as it was at the beginning. -/

namespace Morphology

/-- Where an index lies on its line. -/
def place (extent stride index : Nat) : Nat := index / stride % extent

/-- The first index of the line on which an index lies. -/
def lineStart (extent stride index : Nat) : Nat := index - place extent stride index * stride

variable {n extent stride start index k : Nat}

theorem lineStart_add_place (extent stride index : Nat) :
    lineStart extent stride index + place extent stride index * stride = index := by
  have hplace : place extent stride index * stride ≤ index :=
    (Nat.mul_le_mul_right stride (Nat.mod_le _ _)).trans (Nat.div_mul_le_self index stride)
  exact Nat.sub_add_cancel hplace

theorem place_add_mul (hstride : 0 < stride) (hstart : place extent stride start = 0)
    (hk : k < extent) : place extent stride (start + k * stride) = k := by
  rw [place] at hstart ⊢
  rw [Nat.add_mul_div_right _ _ hstride, Nat.add_mod, hstart, Nat.zero_add, Nat.mod_mod,
    Nat.mod_eq_of_lt hk]

theorem lineStart_add_mul (hstride : 0 < stride) (hstart : place extent stride start = 0)
    (hk : k < extent) : lineStart extent stride (start + k * stride) = start := by
  rw [lineStart, place_add_mul hstride hstart hk, Nat.add_sub_cancel]

theorem place_lineStart (hstride : 0 < stride) (extent index : Nat) :
    place extent stride (lineStart extent stride index) = 0 := by
  have hblocks := Nat.div_add_mod (index / stride) extent
  have hindex := Nat.div_add_mod index stride
  have hfirst : lineStart extent stride index =
      index % stride + extent * (index / stride / extent) * stride := by
    have hsplit := congrArg (· * stride) hblocks
    simp only [Nat.add_mul] at hsplit
    rw [lineStart, place]
    rw [Nat.mul_comm stride] at hindex
    omega
  rw [hfirst, place, Nat.add_mul_div_right _ _ hstride,
    Nat.div_eq_of_lt (Nat.mod_lt _ hstride), Nat.zero_add, Nat.mul_mod_right]

theorem add_mul_lt (hstride : 0 < stride) (hdvd : extent * stride ∣ n)
    (hstart : place extent stride start = 0) (hlt : start < n) (hk : k < extent) :
    start + k * stride < n := by
  obtain ⟨m, rfl⟩ := hdvd
  rw [Nat.mul_right_comm] at hlt ⊢
  obtain ⟨block, hblock⟩ := Nat.dvd_of_mod_eq_zero hstart
  have hrow : start / stride < extent * m := (Nat.div_lt_iff_lt_mul hstride).mpr hlt
  have hnext : extent * (block + 1) ≤ extent * m := by
    apply Nat.mul_le_mul_left
    rw [hblock] at hrow
    exact Nat.lt_of_mul_lt_mul_left hrow
  rw [← Nat.div_lt_iff_lt_mul hstride, Nat.add_mul_div_right _ _ hstride, hblock]
  rw [Nat.mul_succ] at hnext
  omega

variable {α : Type}

/-! ## Reading and writing a line -/

theorem readLine_spec (data : Vector α n) (h : ∀ k < extent, start + k * stride < n) :
    (readLine data start stride extent).length = extent ∧
      ∀ k (p : Fin n), k < extent → (p : Nat) = start + k * stride →
        (readLine data start stride extent)[k]? = some (data.get p) := by
  induction extent with
  | zero => exact ⟨rfl, fun k p hk => absurd hk (Nat.not_lt_zero k)⟩
  | succ extent ih =>
      obtain ⟨hlength, hget⟩ := ih fun k hk => h k (by omega)
      have hlast : readLine data start stride (extent + 1) =
          readLine data start stride extent ++ [data.get ⟨_, h extent (by omega)⟩] := by
        have hin : data[start + extent * stride]? = some (data.get ⟨_, h extent (by omega)⟩) :=
          Vector.getElem?_eq_getElem _
        simp only [readLine, List.range_succ, List.filterMap_append, List.filterMap_cons, hin,
          List.filterMap_nil]
      rw [hlast]
      refine ⟨by simp [hlength], ?_⟩
      intro k p hk hp
      by_cases hlt : k < extent
      · rw [List.getElem?_append_left (by omega)]
        exact hget k p hlt hp
      · have hk : k = extent := by omega
        subst hk
        rw [List.getElem?_append_right (by omega), hlength, Nat.sub_self]
        simp only [List.getElem?_cons_zero, ← hp]

theorem exists_get_of_mem_readLine {data : Vector α n} {a : α}
    (h : a ∈ readLine data start stride extent) : ∃ p, data.get p = a := by
  obtain ⟨k, _, hk⟩ := List.mem_filterMap.mp h
  obtain ⟨hlt, ha⟩ := Vector.getElem?_eq_some_iff.mp hk
  exact ⟨⟨_, hlt⟩, ha⟩

theorem get_setIfInBounds (data : Vector α n) (i : Nat) (a : α) (p : Fin n) :
    (data.setIfInBounds i a).get p = if i = p then a else data.get p :=
  Vector.getElem_setIfInBounds p.isLt

theorem place_unique (hstride : 0 < stride) {i j : Nat}
    (h : start + i * stride = start + j * stride) : i = j :=
  Nat.eq_of_mul_eq_mul_right hstride (Nat.add_left_cancel h)

theorem writeLine_spec (hstride : 0 < stride) (start : Nat) (data : Vector α n) (values : List α)
    (p : Fin n) :
    (∀ k a, values[k]? = some a → (p : Nat) = start + k * stride →
        (writeLine data start stride values).get p = a) ∧
      ((∀ k < values.length, (p : Nat) ≠ start + k * stride) →
        (writeLine data start stride values).get p = data.get p) := by
  -- The induction is on what is left of the line; `first` is its first place.
  have hrest (first : Nat) (data : Vector α n) :
      let written := (values.zipIdx first).foldl
        (fun data entry => data.setIfInBounds (start + entry.2 * stride) entry.1) data
      (∀ k a, values[k]? = some a → (p : Nat) = start + (first + k) * stride →
          written.get p = a) ∧
        ((∀ k < values.length, (p : Nat) ≠ start + (first + k) * stride) →
          written.get p = data.get p) := by
    induction values generalizing first data with
    | nil => exact ⟨fun k a ha => by simp at ha, fun _ => rfl⟩
    | cons x xs ih =>
        obtain ⟨hmem, hframe⟩ := ih (first + 1) (data.setIfInBounds (start + first * stride) x)
        have hshift (k : Nat) : first + 1 + k = first + (k + 1) := by omega
        refine ⟨?_, ?_⟩
        · intro k a ha hp
          cases k with
          | zero =>
              have hlater : ∀ k < xs.length, (p : Nat) ≠ start + (first + 1 + k) * stride := by
                intro k _ hk
                have := place_unique hstride (hp.symm.trans hk)
                omega
              have hx : x = a := by simpa using ha
              have hstart : start + first * stride = p := by rw [hp, Nat.add_zero]
              rw [List.zipIdx_cons, List.foldl_cons, hframe hlater, get_setIfInBounds,
                if_pos hstart, hx]
          | succ k => exact hmem k a ha (by rw [hp, hshift])
        · intro hnone
          have hlater : ∀ k < xs.length, (p : Nat) ≠ start + (first + 1 + k) * stride := by
            intro k hk
            rw [hshift]
            exact hnone (k + 1) (Nat.succ_lt_succ hk)
          have hstart : start + first * stride ≠ p := fun heq =>
            hnone 0 (Nat.succ_pos _) (by rw [Nat.add_zero, heq])
          rw [List.zipIdx_cons, List.foldl_cons, hframe hlater, get_setIfInBounds, if_neg hstart]
  have hall := hrest 0 data
  simp only [Nat.zero_add] at hall
  exact hall

/-! ## All lines along an axis -/

def lineStarts (n extent stride : Nat) : List Nat :=
  (List.range n).filter fun index => index / stride % extent = 0

theorem nodup_lineStarts (n extent stride : Nat) : (lineStarts n extent stride).Nodup :=
  List.nodup_range.filter _

theorem mem_lineStarts_iff :
    start ∈ lineStarts n extent stride ↔ start < n ∧ place extent stride start = 0 := by
  simp [lineStarts, place]

theorem lineStart_mem_lineStarts (hstride : 0 < stride) (extent : Nat) (p : Fin n) :
    lineStart extent stride p ∈ lineStarts n extent stride :=
  mem_lineStarts_iff.mpr
    ⟨(Nat.sub_le _ _).trans_lt p.isLt, place_lineStart hstride extent p⟩

section Line

variable (hstride : 0 < stride) (hextent : 0 < extent) (hdvd : extent * stride ∣ n)
  (hstart : start ∈ lineStarts n extent stride)

include hstride hdvd hstart

theorem length_readLine (data : Vector α n) :
    (readLine data start stride extent).length = extent := by
  obtain ⟨hlt, hplace⟩ := mem_lineStarts_iff.mp hstart
  exact (readLine_spec data fun k hk => add_mul_lt hstride hdvd hplace hlt hk).1

theorem exists_place_eq (hk : k < extent) :
    ∃ p : Fin n, lineStart extent stride p = start ∧ place extent stride p = k := by
  obtain ⟨hlt, hplace⟩ := mem_lineStarts_iff.mp hstart
  exact ⟨⟨start + k * stride, add_mul_lt hstride hdvd hplace hlt hk⟩,
    lineStart_add_mul hstride hplace hk, place_add_mul hstride hplace hk⟩

include hextent

theorem getElem?_readLine (data : Vector α n) (p : Fin n)
    (hp : lineStart extent stride p = start) :
    (readLine data start stride extent)[place extent stride p]? = some (data.get p) := by
  obtain ⟨hlt, hplace⟩ := mem_lineStarts_iff.mp hstart
  have hindex := lineStart_add_place extent stride p
  rw [hp] at hindex
  exact (readLine_spec data fun k hk => add_mul_lt hstride hdvd hplace hlt hk).2 _ p
    (Nat.mod_lt _ hextent) hindex.symm

theorem readLine_congr {v w : Vector α n}
    (h : ∀ p : Fin n, lineStart extent stride p = start → v.get p = w.get p) :
    readLine v start stride extent = readLine w start stride extent := by
  apply List.ext_getElem?
  intro k
  by_cases hk : k < extent
  · obtain ⟨q, hq, rfl⟩ := exists_place_eq hstride hdvd hstart hk
    rw [getElem?_readLine hstride hextent hdvd hstart v q hq,
      getElem?_readLine hstride hextent hdvd hstart w q hq, h q hq]
  · rw [List.getElem?_eq_none (by rw [length_readLine hstride hdvd hstart]; omega),
      List.getElem?_eq_none (by rw [length_readLine hstride hdvd hstart]; omega)]

variable [Pixel α] {kind : Kind} {data : Vector α n}

theorem attains_readLine {t : Int} {j : Nat} :
    Attains kind t (readLine data start stride extent) j ↔
      ∃ q : Fin n, lineStart extent stride q = start ∧ place extent stride q = j ∧
        t ≤ levels kind data q := by
  constructor
  · intro h
    have hj := h.lt_length
    rw [length_readLine hstride hdvd hstart] at hj
    obtain ⟨q, hq, rfl⟩ := exists_place_eq hstride hdvd hstart hj
    obtain ⟨a, ha, ht⟩ := h
    rw [getElem?_readLine hstride hextent hdvd hstart data q hq, Option.some.injEq] at ha
    subst ha
    exact ⟨q, hq, rfl, ht⟩
  · rintro ⟨q, hq, rfl, ht⟩
    exact ⟨_, getElem?_readLine hstride hextent hdvd hstart data q hq, ht⟩

end Line

/-! ## Filtering along an axis -/

variable [Pixel α]

def filterFrom (kind : Kind) (radius extent stride : Nat) (data : Vector α n) (start : Nat) :
    Vector α n :=
  writeLine data start stride (filterLine kind radius (readLine data start stride extent))

theorem filterAxis_eq (kind : Kind) (radius : Nat) (data : Vector α n) (extent stride : Nat) :
    filterAxis kind radius data (extent, stride) =
      if extent = 1 then data
      else (lineStarts n extent stride).foldl
        (filterFrom kind (min radius (extent - 1)) extent stride) data := rfl

theorem filterFrom_spec (hstride : 0 < stride) (hextent : 0 < extent)
    (hdvd : extent * stride ∣ n) (hstart : start ∈ lineStarts n extent stride) (kind : Kind)
    (radius : Nat) (data : Vector α n) (p : Fin n) :
    (lineStart extent stride p ≠ start →
        (filterFrom kind radius extent stride data start).get p = data.get p) ∧
      (lineStart extent stride p = start →
        (filterLine kind radius (readLine data start stride extent))[place extent stride p]? =
          some ((filterFrom kind radius extent stride data start).get p)) := by
  obtain ⟨_, hplace⟩ := mem_lineStarts_iff.mp hstart
  have hlength : (filterLine kind radius (readLine data start stride extent)).length = extent := by
    rw [length_filterLine, length_readLine hstride hdvd hstart]
  obtain ⟨hmem, hframe⟩ := writeLine_spec hstride start data
    (filterLine kind radius (readLine data start stride extent)) p
  refine ⟨?_, ?_⟩
  · intro hp
    apply hframe
    intro k hk heq
    rw [hlength] at hk
    exact hp (by rw [heq, lineStart_add_mul hstride hplace hk])
  · intro hp
    have hindex := lineStart_add_place extent stride p
    rw [hp] at hindex
    have hlt : place extent stride p <
        (filterLine kind radius (readLine data start stride extent)).length := by
      rw [hlength]
      exact Nat.mod_lt _ hextent
    have hvalue := List.getElem?_eq_getElem hlt
    rw [filterFrom, hmem _ _ hvalue hindex.symm, hvalue]

/-- The second element lies on the line of the first one, not farther away than the radius. -/
def OnLine (extent stride radius : Nat) (p q : Fin n) : Prop :=
  lineStart extent stride q = lineStart extent stride p ∧
    place extent stride p ≤ place extent stride q + radius ∧
    place extent stride q ≤ place extent stride p + radius

/-- Fewer places than the radius precede the element on its line, or follow it. -/
def NearEnd (extent stride radius : Nat) (p : Fin n) : Prop :=
  place extent stride p < radius ∨ extent ≤ place extent stride p + radius

theorem filterFrom_padded (hstride : 0 < stride) (hextent : 0 < extent)
    (hdvd : extent * stride ∣ n) (kind : Kind) (radius : Nat) {data : Vector α n}
    (h : AllOrdered data) (hidentity : Pixel.Ordered (kind.identity : α)) (p : Fin n) :
    let value := (filterFrom kind radius extent stride data (lineStart extent stride p)).get p
    Pixel.Ordered value ∧ ∀ t, t ≤ kind.level value ↔
      (∃ q, OnLine extent stride radius p q ∧ t ≤ levels kind data q) ∨
        NearEnd extent stride radius p ∧ t ≤ kind.level (kind.identity : α) := by
  intro value
  have hstart := lineStart_mem_lineStarts hstride extent p
  have hvalue := (filterFrom_spec hstride hextent hdvd hstart kind radius data p).2 rfl
  have hline : ∀ a ∈ readLine data (lineStart extent stride p) stride extent,
      Pixel.Ordered a := by
    intro a ha
    obtain ⟨q, rfl⟩ := exists_get_of_mem_readLine ha
    exact h q
  obtain ⟨hordered, hattains⟩ := filterLine_spec kind radius hline hidentity
  refine ⟨hordered _ (List.mem_of_getElem? hvalue), ?_⟩
  intro t
  have hplace : place extent stride p < extent := Nat.mod_lt _ hextent
  have hown := hattains t (place extent stride p)
  rw [Attains, hvalue, length_readLine hstride hdvd hstart] at hown
  simp only [Option.some.injEq, exists_eq_left', hplace, true_and,
    attains_readLine hstride hextent hdvd hstart] at hown
  rw [hown]
  apply or_congr_left
  constructor
  · rintro ⟨j, hnear, q, hline, rfl, ht⟩
    exact ⟨q, ⟨hline, hnear⟩, ht⟩
  · rintro ⟨q, ⟨hline, hnear⟩, ht⟩
    exact ⟨_, hnear, q, hline, rfl, ht⟩

theorem get_foldl_filterFrom (hstride : 0 < stride) (hextent : 0 < extent)
    (hdvd : extent * stride ∣ n) (kind : Kind) (radius : Nat) (data : Vector α n) (p : Fin n) :
    ((lineStarts n extent stride).foldl (filterFrom kind radius extent stride) data).get p =
      (filterFrom kind radius extent stride data (lineStart extent stride p)).get p := by
  have hspec {start : Nat} (hstart : start ∈ lineStarts n extent stride) (v : Vector α n) :=
    filterFrom_spec hstride hextent hdvd hstart kind radius v
  rw [get_foldl_of_parts (fun q : Fin n => lineStart extent stride q) (nodup_lineStarts _ _ _)
    (fun v s hs q hq => (hspec hs v q).1 hq)]
  · exact if_pos (lineStart_mem_lineStarts hstride extent p)
  · intro v w s hs hsame q hq
    have hv := (hspec hs v q).2 hq
    rw [readLine_congr hstride hextent hdvd hs hsame, (hspec hs w q).2 hq] at hv
    exact (Option.some.inj hv).symm

/-- Filtering along an axis gives every element the furthest value around it on its line. A line of
one element is not padded. -/
theorem filterAxis_padded (hstride : 0 < stride) (hextent : 0 < extent)
    (hdvd : extent * stride ∣ n) (kind : Kind) (radius : Nat) {data : Vector α n}
    (h : AllOrdered data) (hidentity : Pixel.Ordered (kind.identity : α)) :
    Padded kind (OnLine extent stride radius)
      (fun p => extent ≠ 1 ∧ NearEnd extent stride radius p) data
      (filterAxis kind radius data (extent, stride)) := by
  rw [filterAxis_eq]
  split
  · next hone =>
      apply (Padded.refl kind h).congr
      · intro p q
        have hplace (x : Nat) : place extent stride x = 0 := by rw [place, hone, Nat.mod_one]
        simp only [OnLine, lineStart, hplace, Nat.zero_mul, Nat.sub_zero, Nat.zero_le, and_true,
          Fin.ext_iff, eq_comm]
      · intro p
        simp only [hone, ne_eq, not_true_eq_false, false_and]
  · next hone =>
      have hclamped : Padded kind (OnLine extent stride (min radius (extent - 1)))
          (NearEnd extent stride (min radius (extent - 1))) data
          ((lineStarts n extent stride).foldl
            (filterFrom kind (min radius (extent - 1)) extent stride) data) := by
        have hline (p : Fin n) :=
          filterFrom_padded hstride hextent hdvd kind (min radius (extent - 1)) h hidentity p
        have hget := get_foldl_filterFrom hstride hextent hdvd kind (min radius (extent - 1)) data
        refine ⟨?_, ?_⟩
        · intro p
          rw [hget]
          exact (hline p).1
        · intro t p
          rw [levels, hget]
          exact (hline p).2 t
      -- Within a line no two places lie farther apart than its extent.
      have hplace (x : Fin n) : place extent stride x < extent := Nat.mod_lt _ hextent
      apply hclamped.congr
      · intro p q
        have hp := hplace p
        have hq := hplace q
        simp only [OnLine]
        omega
      · intro p
        have hp := hplace p
        simp only [NearEnd]
        omega

end Morphology
