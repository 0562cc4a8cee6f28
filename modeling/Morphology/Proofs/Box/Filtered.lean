import Morphology.Proofs.Reconstruction.Paths

/-! Filters that give every element the furthest value of its window, padded with the identity where
the window is clipped. One filter after another has the windows composed. Against bounded values the
padding does not count. -/

namespace Morphology

variable {α : Type} [Pixel α] {n : Nat} {kind : Kind} {data middle result : Vector α n}
  {window other : Fin n → Fin n → Prop} {clipped otherClipped : Fin n → Prop}

/-- Every element of the result is as high as the highest of its window in the data. -/
structure Filtered (kind : Kind) (window : Fin n → Fin n → Prop) (data result : Vector α n) :
    Prop where
  ordered : AllOrdered result
  le_iff : ∀ t p, t ≤ levels kind result p ↔ ∃ q, window p q ∧ t ≤ levels kind data q

/-- Clipped windows also hold the identity. -/
structure Padded (kind : Kind) (window : Fin n → Fin n → Prop) (clipped : Fin n → Prop)
    (data result : Vector α n) : Prop where
  ordered : AllOrdered result
  le_iff : ∀ t p, t ≤ levels kind result p ↔
    (∃ q, window p q ∧ t ≤ levels kind data q) ∨
      clipped p ∧ t ≤ kind.level (kind.identity : α)

namespace Padded

theorem refl (kind : Kind) (h : AllOrdered data) : Padded kind Eq (fun _ => False) data data := by
  refine ⟨h, ?_⟩
  intro t p
  simp only [exists_eq_left', false_and, or_false]

theorem trans (h : Padded kind window clipped data middle)
    (hnext : Padded kind other otherClipped middle result) :
    Padded kind (fun p q => ∃ x, other p x ∧ window x q)
      (fun p => (∃ x, other p x ∧ clipped x) ∨ otherClipped p) data result := by
  refine ⟨hnext.ordered, ?_⟩
  intro t p
  simp only [hnext.le_iff, h.le_iff]
  constructor
  · rintro (⟨x, hx, ⟨q, hq, ht⟩ | ⟨hclipped, ht⟩⟩ | ⟨hclipped, ht⟩)
    · exact .inl ⟨q, ⟨x, hx, hq⟩, ht⟩
    · exact .inr ⟨.inl ⟨x, hx, hclipped⟩, ht⟩
    · exact .inr ⟨.inr hclipped, ht⟩
  · rintro (⟨q, ⟨x, hx, hq⟩, ht⟩ | ⟨⟨x, hx, hclipped⟩ | hclipped, ht⟩)
    · exact .inl ⟨x, hx, .inl ⟨q, hq, ht⟩⟩
    · exact .inl ⟨x, hx, .inr ⟨hclipped, ht⟩⟩
    · exact .inr ⟨hclipped, ht⟩

theorem congr (h : Padded kind window clipped data result)
    (hwindow : ∀ p q, window p q ↔ other p q) (hclipped : ∀ p, clipped p ↔ otherClipped p) :
    Padded kind other otherClipped data result := by
  refine ⟨h.ordered, ?_⟩
  intro t p
  simp only [h.le_iff, hwindow, hclipped]

/-- Of bounded values the padding changes nothing, since the identity lies behind the element
itself. -/
theorem filtered (h : Padded kind window clipped data result) (hdata : AllBounded data)
    (hself : ∀ p, window p p) : Filtered kind window data result := by
  refine ⟨h.ordered, ?_⟩
  intro t p
  rw [h.le_iff, or_iff_left_of_imp]
  intro hpadding
  exact ⟨p, hself p, hpadding.2.trans ((hdata p).level_identity_le kind)⟩

theorem opposite_le_iff (h : Padded kind.opposite window clipped data result) (t : Int)
    (p : Fin n) :
    t ≤ levels kind result p ↔
      (∀ q, window p q → t ≤ levels kind data q) ∧
        (clipped p → t ≤ kind.level (kind.opposite.identity : α)) := by
  have hbelow : levels kind result p < t ↔
      (∃ q, window p q ∧ levels kind data q < t) ∨
        clipped p ∧ kind.level (kind.opposite.identity : α) < t := by
    have hle := h.le_iff (1 - t) p
    simp only [levels, Kind.level_opposite] at hle ⊢
    simp only [show ∀ x : Int, 1 - t ≤ -x ↔ x < t by omega] at hle
    exact hle
  rw [← not_lt, hbelow]
  simp only [not_or, not_exists, not_and, not_lt]

end Padded

namespace Filtered

theorem trans (h : Filtered kind window data middle) (hnext : Filtered kind other middle result) :
    Filtered kind (fun p q => ∃ x, other p x ∧ window x q) data result := by
  refine ⟨hnext.ordered, ?_⟩
  intro t p
  simp only [hnext.le_iff, h.le_iff]
  constructor
  · rintro ⟨x, hx, q, hq, ht⟩
    exact ⟨q, ⟨x, hx, hq⟩, ht⟩
  · rintro ⟨q, ⟨x, hx, hq⟩, ht⟩
    exact ⟨x, hx, q, hq, ht⟩

theorem congr (h : Filtered kind window data result) (hwindow : ∀ p q, window p q ↔ other p q) :
    Filtered kind other data result := by
  refine ⟨h.ordered, ?_⟩
  intro t p
  simp only [h.le_iff, hwindow]

theorem unique {r : IntRange} {data first second : Vector (Sample r) n}
    (h : Filtered kind window data first) (hsecond : Filtered kind window data second) :
    first = second := by
  apply eq_of_thresholds kind
  intro t p
  rw [h.le_iff, hsecond.le_iff]

theorem exists_level_eq (h : Filtered kind window data result) (p : Fin n) :
    ∃ q, window p q ∧ levels kind result p = levels kind data q := by
  obtain ⟨q, hq, hle⟩ := (h.le_iff _ p).mp le_rfl
  exact ⟨q, hq, le_antisymm hle ((h.le_iff _ p).mpr ⟨q, hq, le_rfl⟩)⟩

theorem isFurthest (h : Filtered kind window data result) (hdata : AllOrdered data) (p : Fin n) :
    IsFurthest kind {a | ∃ q, window p q ∧ data.get q = a} (result.get p) := by
  obtain ⟨q, hq, hlevel⟩ := h.exists_level_eq p
  refine ⟨⟨_, ⟨q, hq, rfl⟩, (Kind.eq_iff kind (h.ordered p) (hdata q)).mpr hlevel⟩, ?_⟩
  rintro _ ⟨r, hr, rfl⟩
  exact (Kind.respects_iff (hdata r) (h.ordered p)).mpr ((h.le_iff _ p).mpr ⟨r, hr, le_rfl⟩)

theorem level_le_iff (h : Filtered kind window data result) {b : Int} {p : Fin n} :
    levels kind result p ≤ b ↔ ∀ q, window p q → levels kind data q ≤ b := by
  constructor
  · intro hle q hq
    exact ((h.le_iff _ p).mpr ⟨q, hq, le_rfl⟩).trans hle
  · intro hall
    obtain ⟨q, hq, hlevel⟩ := h.exists_level_eq p
    exact hlevel.trans_le (hall q hq)

theorem le_opposite_iff (h : Filtered kind.opposite window data result) {b : Int} {p : Fin n} :
    b ≤ levels kind result p ↔ ∀ q, window p q → b ≤ levels kind data q := by
  have hlevel := h.level_le_iff (b := -b) (p := p)
  simp only [levels, Kind.level_opposite, neg_le_neg_iff] at hlevel
  exact hlevel

/-- Of a symmetric window both filters are adjoint: what the one raises stays below a bound exactly
if it lay below what the other lowers the bound to. -/
theorem le_iff_le {bound lowered : Vector α n} (h : Filtered kind window data result)
    (hopposite : Filtered kind.opposite window bound lowered)
    (hsymm : ∀ p q, window p q → window q p) :
    (∀ p, levels kind result p ≤ levels kind bound p) ↔
      ∀ p, levels kind data p ≤ levels kind lowered p := by
  simp only [h.level_le_iff, hopposite.le_opposite_iff]
  constructor
  · intro hbelow p q hpq
    exact hbelow q p (hsymm p q hpq)
  · intro hbelow p q hpq
    exact hbelow q p (hsymm p q hpq)

end Filtered

end Morphology
