import Morphology.Proofs.Shape.Displaced

/-! The test for a neighbor reads coordinates as signed words. As long as these hold them the
neighbor is the one at the exact sums; from the middle of the words on it is the one at sums that
are too small by all words. -/

namespace Morphology

theorem Word.signed_of_le {n : Nat} (low : Word.half ≤ n) (high : n < Word.modulus) :
    Word.signed n = n - Word.modulus := by
  have hturn : (n : Int) ≡ n - Word.modulus [ZMOD Word.modulus] := (Int.sub_emod_right n _).symm
  rw [Word.signed, Shape.wrap_congr hturn]
  simp only [Word.half, Word.modulus] at low high ⊢
  exact Word.wrap_of_bounded (by simp only [Word.half]; omega) (by simp only [Word.half]; omega)

/-- The sums of coordinates, read as signed words, and an offset, axis by axis. -/
def displacedWords (coords : List Nat) (offset : List Int) : List Int :=
  List.zipWith (fun (c : Nat) (o : Int) => Word.signed c + o) coords offset

@[simp] theorem displacedWords_cons (c : Nat) (cs : List Nat) (o : Int) (os : List Int) :
    displacedWords (c :: cs) (o :: os) = (Word.signed c + o) :: displacedWords cs os := rfl

theorem displacedWords_of_lt {coords : List Nat} (h : ∀ c ∈ coords, c < Word.half)
    (offset : List Int) : displacedWords coords offset = displaced coords offset := by
  induction coords generalizing offset with
  | nil => simp [displacedWords]
  | cons c cs ih =>
      rw [List.forall_mem_cons] at h
      cases offset with
      | nil => simp [displacedWords, displaced]
      | cons o os => rw [displacedWords_cons, displaced_cons, Word.signed_of_lt h.1, ih h.2]

/-- The offset to coordinates reached in words is the displacement, up to whole turns. -/
theorem offset_modEq_displacement {coords : List Nat} {offset : List Int}
    (hlength : offset.length = coords.length)
    (hnonneg : ∀ x ∈ displacedWords coords offset, 0 ≤ x) :
    List.Forall₂ (· ≡ · [ZMOD Word.modulus]) offset
      (displacement coords ((displacedWords coords offset).map Int.toNat)) := by
  induction coords generalizing offset with
  | nil =>
      rw [List.eq_nil_of_length_eq_zero hlength]
      exact .nil
  | cons c cs ih =>
      cases offset with
      | nil => simp at hlength
      | cons o os =>
          rw [displacedWords_cons, List.forall_mem_cons] at hnonneg
          rw [displacedWords_cons, List.map_cons, displacement_cons, Int.toNat_of_nonneg hnonneg.1]
          refine .cons ?_ (ih (by simpa using hlength) hnonneg.2)
          have hturn := (Shape.wrap_modEq (c : Int)).add_right (o - c)
          rw [← Word.signed] at hturn
          have hleft : Word.signed c + (o - c) = Word.signed c + o - c := by omega
          have hright : (c : Int) + (o - c) = o := by omega
          rw [hleft, hright] at hturn
          exact hturn.symm

namespace Shape

variable {s : Shape}

theorem signedDot_modEq {a b : List Int} (h : List.Forall₂ (· ≡ · [ZMOD Word.modulus]) a b)
    (strides : List Nat) : signedDot a strides ≡ signedDot b strides [ZMOD Word.modulus] := by
  induction h generalizing strides with
  | nil => exact Int.ModEq.refl _
  | cons hhead _ ih =>
      cases strides with
      | nil => exact Int.ModEq.refl _
      | cons d ds => exact (hhead.mul_right _).add (ih ds)

theorem linearDelta_congr {a b : List Int} (h : List.Forall₂ (· ≡ · [ZMOD Word.modulus]) a b) :
    s.linearDelta a = s.linearDelta b :=
  wrap_congr (signedDot_modEq h s.strides)

/-- No sum of a coordinate and an offset leaves the signed words, as far as the test for the inside
looks: it stops at the first axis that is left. -/
def SumsHold : List Nat → List Int → List Nat → Prop
  | c :: cs, o :: os, d :: ds =>
      (-(Word.half : Int) ≤ Word.signed c + o ∧ Word.signed c + o < Word.half) ∧
        (0 ≤ Word.signed c + o ∧ Word.signed c + o < d → SumsHold cs os ds)
  | _, _, _ => True

theorem reaches_iff_displacedWords {coords dims : List Nat} {offset : List Int}
    (hlength : coords.length = dims.length) (hoffset : offset.length = dims.length)
    (hsums : SumsHold coords offset dims) :
    reaches coords offset dims = true ↔
      List.Forall₂ (fun (x : Int) (d : Nat) => 0 ≤ x ∧ x < d) (displacedWords coords offset)
        dims := by
  induction dims generalizing coords offset with
  | nil =>
      rw [List.eq_nil_of_length_eq_zero hlength, List.eq_nil_of_length_eq_zero hoffset]
      simp [reaches, displacedWords]
  | cons d ds ih =>
      cases coords with
      | nil => simp at hlength
      | cons c cs =>
          cases offset with
          | nil => simp at hoffset
          | cons o os =>
              obtain ⟨hfits, hrest⟩ := hsums
              have htail (hin : 0 ≤ Word.signed c + o ∧ Word.signed c + o < d) :=
                ih (by simpa using hlength) (by simpa using hoffset) (hrest hin)
              have hlt : 0 ≤ Word.signed c + o →
                  ((Word.signed c + o).toNat < d ↔ Word.signed c + o < d) := by omega
              simp only [reaches, Word.wrap_of_bounded hfits.1 hfits.2, displacedWords_cons,
                List.forall₂_cons, Bool.and_eq_true, decide_eq_true_eq]
              constructor
              · rintro ⟨⟨hlow, hhigh⟩, hreach⟩
                have hin := And.intro hlow ((hlt hlow).mp hhigh)
                exact ⟨hin, (htail hin).mp hreach⟩
              · rintro ⟨hin, hwithin⟩
                exact ⟨⟨hin.1, (hlt hin.1).mpr hin.2⟩, (htail hin).mpr hwithin⟩

/-- The index at exact coordinates, where these lie inside. -/
def indexAt? (s : Shape) (coords : List Int) : Option Nat :=
  if ∀ x ∈ coords, 0 ≤ x then s.indexOf? (coords.map Int.toNat) else none

theorem indexAt?_of_encloses {coords : List Int} (h : s.Encloses coords) :
    s.indexAt? coords = some (s.indexOfUnchecked (coords.map Int.toNat)) := by
  obtain ⟨hnonneg, hinside⟩ := encloses_iff.mp h
  rw [indexAt?, if_pos hnonneg, indexOf?, if_pos hinside]

theorem indexAt?_of_not_encloses {coords : List Int} (h : ¬ s.Encloses coords) :
    s.indexAt? coords = none := by
  rw [indexAt?]
  split
  · next hnonneg =>
      rw [indexOf?, if_neg]
      exact fun hinside => h (encloses_iff.mpr ⟨hnonneg, hinside⟩)
  · rfl

/-- The sums and products of the linear distance may leave the words: the index comes out right. -/
theorem neighborIndex?_eq_indexAt? {coords : List Nat} {offset : List Int}
    (hin : s.contains coords = true) (hlength : offset.length = s.ndim)
    (hsums : SumsHold coords offset s.dims) :
    s.neighborIndex? coords offset = s.indexAt? (displacedWords coords offset) := by
  have hcoords : coords.length = s.ndim := length_of_inside hin
  have hlengths : ¬ (coords.length ≠ s.ndim ∨ offset.length ≠ s.ndim) := by
    simp [hcoords, hlength]
  have hreach : s.offsetInBounds coords offset = true ↔
      s.Encloses (displacedWords coords offset) :=
    reaches_iff_displacedWords hcoords hlength hsums
  rw [neighborIndex?, if_neg hlengths]
  split
  · next hinside =>
      have hencloses := hreach.mp hinside
      obtain ⟨hnonneg, htarget⟩ := encloses_iff.mp hencloses
      have hoffset := offset_modEq_displacement (hlength.trans hcoords.symm) hnonneg
      rw [indexAt?_of_encloses hencloses, linearDelta_congr hoffset,
        unsigned_add_linearDelta hin htarget]
  · next houtside =>
      rw [indexAt?_of_not_encloses fun h => houtside (hreach.mpr h)]

/-! ## Where the reading matters -/

/-- Only coordinates that signed words hold lead inside both exactly and in words. -/
theorem lt_half_of_encloses {coords dims : List Nat} {offset : List Int}
    (hin : inside coords dims = true) (hdims : ∀ d ∈ dims, d < Word.modulus)
    (hlength : offset.length = dims.length)
    (hexact : List.Forall₂ (fun (x : Int) (d : Nat) => 0 ≤ x ∧ x < d) (displaced coords offset)
      dims)
    (hwords : List.Forall₂ (fun (x : Int) (d : Nat) => 0 ≤ x ∧ x < d)
      (displacedWords coords offset) dims) :
    ∀ c ∈ coords, c < Word.half := by
  induction hin using inside_induction generalizing offset with
  | nil => simp
  | cons c d cs ds hc hcs ih =>
      rw [List.forall_mem_cons] at hdims ⊢
      cases offset with
      | nil => simp at hlength
      | cons o os =>
          rw [displaced_cons, List.forall₂_cons] at hexact
          rw [displacedWords_cons, List.forall₂_cons] at hwords
          refine ⟨?_, ih hdims.2 (by simpa using hlength) hexact.2 hwords.2⟩
          by_contra hlarge
          rw [Word.signed_of_le (Nat.not_lt.mp hlarge) (hc.trans hdims.1)] at hwords
          omega

/-- The checked neighbor, at coordinates inside and for an offset whose sums do not overflow, is the
one at the coordinates read as signed words and displaced. It is the one at the exact sums just if
signed words hold all coordinates, or neither of the two lies inside. -/
theorem neighborIndex?_exact_iff {coords : List Nat} {offset : List Int}
    (hin : s.contains coords = true) (hlength : offset.length = s.ndim)
    (hsums : SumsHold coords offset s.dims) :
    s.neighborIndex? coords offset = s.indexAt? (displacedWords coords offset) ∧
      (s.neighborIndex? coords offset = s.indexAt? (displaced coords offset) ↔
        (∀ c ∈ coords, c < Word.half) ∨
          ¬ s.Encloses (displaced coords offset) ∧
            ¬ s.Encloses (displacedWords coords offset)) := by
  have hindex := neighborIndex?_eq_indexAt? hin hlength hsums
  refine ⟨hindex, ?_⟩
  rw [hindex]
  constructor
  · intro hsame
    by_cases hexact : s.Encloses (displaced coords offset)
    · by_cases hwords : s.Encloses (displacedWords coords offset)
      · have hdims : ∀ d ∈ s.dims, d < Word.modulus := fun d hd =>
          (le_volume_of_mem s.len_pos hd).trans_lt s.volume_lt
        exact .inl (lt_half_of_encloses hin hdims hlength hexact hwords)
      · rw [indexAt?_of_encloses hexact, indexAt?_of_not_encloses hwords] at hsame
        cases hsame
    · by_cases hwords : s.Encloses (displacedWords coords offset)
      · rw [indexAt?_of_encloses hwords, indexAt?_of_not_encloses hexact] at hsame
        cases hsame
      · exact .inr ⟨hexact, hwords⟩
  · rintro (hsmall | ⟨hexact, hwords⟩)
    · rw [displacedWords_of_lt hsmall]
    · rw [indexAt?_of_not_encloses hexact, indexAt?_of_not_encloses hwords]

/-- One axis of `2 ^ 64 - 1` places. -/
def thread : Shape where
  dims := [0xffffffffffffffff]
  dims_ne_nil := by decide
  dims_pos := by decide
  volume_lt := by decide

/-- From the coordinate `2 ^ 64 - 2`, the last of the axis, the offset 2 gives the index 0, though
the exact sum lies outside. -/
theorem neighborIndex?_thread_exact_iff :
    thread.neighborIndex? [0xfffffffffffffffe] [2] = some 0 ∧
      thread.neighborIndex? [0xfffffffffffffffe] [2] ≠
        thread.indexAt? (displaced [0xfffffffffffffffe] [2]) := by
  have hsums : SumsHold [0xfffffffffffffffe] [2] thread.dims := ⟨by decide, fun _ => trivial⟩
  obtain ⟨hindex, hexact⟩ :=
    neighborIndex?_exact_iff (s := thread) (by decide) (by decide) hsums
  refine ⟨hindex.trans (by decide), ?_⟩
  rw [ne_eq, hexact]
  rintro (hsmall | ⟨_, hwords⟩)
  · exact absurd (hsmall _ List.mem_cons_self) (by decide)
  · exact hwords (.cons (by decide) .nil)

/-- From the coordinate `2 ^ 64 - 2` the offset -1 gives no index, though the exact sum is the place
`2 ^ 64 - 3`. -/
theorem neighborIndex?_thread_not_exact :
    thread.contains [0xfffffffffffffffe] = true ∧
      SumsHold [0xfffffffffffffffe] [-1] thread.dims ∧
      thread.neighborIndex? [0xfffffffffffffffe] [-1] = none ∧
      thread.indexAt? (displaced [0xfffffffffffffffe] [-1]) = some 0xfffffffffffffffd := by
  refine ⟨by decide, ⟨by decide, fun _ => trivial⟩, by decide, by decide⟩

end Shape

end Morphology
