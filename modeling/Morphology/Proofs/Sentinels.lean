import Morphology.Proofs.Binary.Levels
import Morphology.Proofs.Holes.Spill
import Morphology.Proofs.Opening.Survivors

/-! The last finite value stands for no value, as the padding of boxes and as the inside of a
marker. An operator gives it to a bounded grid only if an element has it, but to a grid with
infinite values also where nothing else is left. -/

namespace Morphology

section Thresholds

variable {n : Nat} {value : Fin n → Int} {blank v : Int} (keep : Set (Fin n) → Prop → Prop)

/-- A value whose thresholds depend only on the elements that attain them, and on whether a sentinel
does, is the value of an element or of the sentinel. -/
theorem eq_or_exists_eq_of_thresholds
    (h : ∀ t, t ≤ v ↔ keep {x | t ≤ value x} (t ≤ blank)) :
    v = blank ∨ ∃ q, v = value q := by
  by_contra hnone
  push Not at hnone
  obtain ⟨hblank, hvalues⟩ := hnone
  have hset : {x | v + 1 ≤ value x} = {x | v ≤ value x} := by
    ext x
    have hne := hvalues x
    change v + 1 ≤ value x ↔ v ≤ value x
    omega
  have hprop : (v + 1 ≤ blank) = (v ≤ blank) := propext (by omega)
  have hnext := (h (v + 1)).mpr (by rw [hset, hprop]; exact (h v).mp le_rfl)
  omega

/-- It is the value of an element, unless no element has the value of the sentinel, and the elements
beyond the sentinel keep that threshold together with the sentinel and not alone. -/
theorem exists_eq_iff_of_thresholds
    (h : ∀ t, t ≤ v ↔ keep {x | t ≤ value x} (t ≤ blank)) :
    (∃ q, v = value q) ↔
      (∃ q, blank = value q) ∨
        ¬ (keep {x | blank < value x} True ∧ ¬ keep {x | blank < value x} False) := by
  have hdrawn := eq_or_exists_eq_of_thresholds keep h
  by_cases hblank : ∃ q, blank = value q
  · refine iff_of_true ?_ (.inl hblank)
    rcases hdrawn with rfl | hvalue
    · exact hblank
    · exact hvalue
  · have hset : {x | blank ≤ value x} = {x | blank < value x} := by
      ext x
      have hne : blank ≠ value x := fun heq => hblank ⟨x, heq⟩
      exact hne.le_iff_lt
    have hwith : keep {x | blank < value x} True ↔ blank ≤ v := by
      rw [h, hset, eq_true (le_refl blank)]
    have hwithout : keep {x | blank < value x} False ↔ blank < v := by
      have hbelow : ¬ blank + 1 ≤ blank := by omega
      rw [← Int.add_one_le_iff, h, eq_false hbelow]
      simp only [Int.add_one_le_iff]
    rw [or_iff_right hblank, hwith, hwithout]
    constructor
    · rintro ⟨q, hq⟩ hsame
      exact hblank ⟨q, by omega⟩
    · intro hother
      exact hdrawn.resolve_left fun hv => hother (by omega)

end Thresholds

namespace Grid

variable {α : Type} [Pixel α] {g : Grid α}

def Holds (g : Grid α) (a : α) : Prop :=
  ∃ q, Pixel.eq a (g.data.get q) = true

instance (g : Grid α) (a : α) : Decidable (g.Holds a) :=
  inferInstanceAs (Decidable (∃ q, Pixel.eq a (g.data.get q) = true))

theorem holds_iff (kind : Kind) (h : AllOrdered g.data) {a : α} (ha : Pixel.Ordered a) :
    g.Holds a ↔ ∃ q, kind.level a = levels kind g.data q :=
  exists_congr fun q => Kind.eq_iff kind ha (h q)

/-- The elements that lie beyond a value in the direction of a kind. -/
def beyond (g : Grid α) (kind : Kind) (a : α) : Set (Fin g.shape.len) :=
  {x | kind.precedes a (g.data.get x) = true}

theorem beyond_eq (kind : Kind) (h : AllOrdered g.data) {a : α} (ha : Pixel.Ordered a) :
    g.beyond kind a = {x | kind.level a < levels kind g.data x} := by
  ext x
  exact Kind.precedes_iff ha (h x)

theorem holds_iff_of_thresholds {kind : Kind} {result : Vector α g.shape.len} {sentinel : α}
    (keep : Set (Fin g.shape.len) → Prop → Fin g.shape.len → Prop) (h : AllOrdered g.data)
    (hsentinel : Pixel.Ordered sentinel) (hresult : AllOrdered result)
    (hlevel : ∀ t p, t ≤ levels kind result p ↔
      keep {x | t ≤ levels kind g.data x} (t ≤ kind.level sentinel) p) (p : Fin g.shape.len) :
    g.Holds (result.get p) ↔ g.Holds sentinel ∨
      ¬ (keep (g.beyond kind sentinel) True p ∧ ¬ keep (g.beyond kind sentinel) False p) := by
  rw [holds_iff kind h (hresult p), holds_iff kind h hsentinel, beyond_eq kind h hsentinel]
  exact exists_eq_iff_of_thresholds (fun S b => keep S b p) fun t => hlevel t p

/-- The box around an element is clipped, and nothing in it lies beyond the identity. -/
def Swamped (g : Grid α) (kind : Kind) (radius : Nat) (p : Fin g.shape.len) : Prop :=
  g.shape.Clipped radius p ∧ ∀ q, g.shape.InBox radius p q → q ∉ g.beyond kind kind.identity

theorem filterBox_holds_iff (g : Grid α) (kind : Kind) {radius : Nat}
    (hradius : radius ≤ maxRadius) (h : AllOrdered g.data)
    (hidentity : Pixel.Ordered (kind.identity : α)) :
    ∃ result, g.filterBox radius kind = .ok (g.withData result) ∧
      ∀ p, g.Holds (result.get p) ↔ g.Holds kind.identity ∨ ¬ g.Swamped kind radius p := by
  obtain ⟨result, hfilter, hresult⟩ := filterBox_padded g kind hradius h hidentity
  refine ⟨result, hfilter, fun p => ?_⟩
  rw [holds_iff_of_thresholds (fun S b p =>
    (∃ q, g.shape.InBox radius p q ∧ q ∈ S) ∨ g.shape.Clipped radius p ∧ b) h hidentity
    hresult.ordered hresult.le_iff]
  refine or_congr_right (not_congr ?_)
  simp only [and_true, and_false, or_false, Swamped, not_exists, not_and]
  constructor
  · rintro ⟨hkept, hnone⟩
    rcases hkept with ⟨q, hq, hbeyond⟩ | hclipped
    · exact absurd hbeyond (hnone q hq)
    · exact ⟨hclipped, hnone⟩
  · rintro ⟨hclipped, hnone⟩
    exact ⟨.inr hclipped, hnone⟩

/-- An element lies beyond the identity, and nothing joins it there to the boundary. -/
def Enclosed (g : Grid α) (kind : Kind) (connectivity : Connectivity) (p : Fin g.shape.len) :
    Prop :=
  p ∈ g.beyond kind kind.identity ∧ ∀ q ∈ g.shape.boundary,
    ¬ Linked (g.shape.Adjacent connectivity) (g.beyond kind kind.identity) p q

theorem restoredFromBoundary_holds_iff (g : Grid α) (kind : Kind) (connectivity : Connectivity)
    (h : AllOrdered g.data) (hidentity : Pixel.Ordered (kind.identity : α))
    (p : Fin g.shape.len) :
    g.Holds ((g.restoredFromBoundary kind connectivity).get p) ↔
      g.Holds kind.identity ∨ ¬ g.Enclosed kind connectivity p := by
  obtain ⟨hordered, hlevel⟩ := restoredFromBoundary_padded g kind connectivity h hidentity
  rw [holds_iff_of_thresholds (fun S b p =>
    (∃ q ∈ g.shape.boundary, Linked (g.shape.Adjacent connectivity) S p q) ∨ p ∈ S ∧ b) h
    hidentity hordered hlevel]
  refine or_congr_right (not_congr ?_)
  simp only [and_true, and_false, or_false, Enclosed, not_exists, not_and]
  constructor
  · rintro ⟨hkept, hnone⟩
    rcases hkept with ⟨q, hq, hlinked⟩ | hp
    · exact absurd hlinked (hnone q hq)
    · exact ⟨hp, hnone⟩
  · rintro ⟨hp, hnone⟩
    exact ⟨.inr hp, hnone⟩

/-- The component of an element beyond the identity of the filter holds boxes, but only such that
stick out of the shape. -/
def Propped (g : Grid α) (kind : Kind) (radius : Nat) (connectivity : Connectivity)
    (p : Fin g.shape.len) : Prop :=
  let beyond := g.beyond kind kind.opposite.identity
  g.shape.Survives connectivity radius beyond p ∧
    ∀ y, Linked (g.shape.Adjacent connectivity) beyond p y →
      (∀ x, g.shape.InBox radius y x → x ∈ beyond) → g.shape.Clipped radius y

theorem simplify_holds_iff (g : Grid α) (kind : Kind) (connectivity : Connectivity) {radius : Nat}
    (hradius : radius ≤ maxRadius) (h : AllOrdered g.data)
    (hidentity : Pixel.Ordered (kind.opposite.identity : α)) :
    ∃ result, g.simplify kind radius connectivity = .ok (g.withData result) ∧
      ∀ p, g.Holds (result.get p) ↔
        g.Holds kind.opposite.identity ∨ ¬ g.Propped kind radius connectivity p := by
  obtain ⟨result, hsimplify, hordered, hlevel⟩ :=
    simplify_padded g kind connectivity hradius h hidentity
  refine ⟨result, hsimplify, fun p => ?_⟩
  rw [holds_iff_of_thresholds (fun S b p =>
    ∃ y, Linked (g.shape.Adjacent connectivity) S p y ∧
      (∀ x, g.shape.InBox radius y x → x ∈ S) ∧ (g.shape.Clipped radius y → b)) h hidentity
    hordered hlevel]
  refine or_congr_right (not_congr ?_)
  simp only [implies_true, and_true, imp_false, Propped, Shape.Survives, not_exists, not_and,
    not_not]

/-! ## Bounded values -/

/-- A bounded grid without the identity as a value has no swamped, enclosed or propped element. -/
theorem holds_or_not_of_bounded (g : Grid α) (kind : Kind) (radius : Nat)
    (connectivity : Connectivity) (h : AllBounded g.data) (p : Fin g.shape.len) :
    (g.Holds kind.identity ∨ ¬ g.Swamped kind radius p) ∧
      (g.Holds kind.identity ∨ ¬ g.Enclosed kind connectivity p) ∧
      ¬ g.Propped kind radius connectivity p := by
  have hordered := (h p).ordered_identity kind
  have hopposite := (h p).ordered_identity kind.opposite
  -- Whatever does not hold the identity lies beyond it as a whole.
  have hbeyond (hnone : ¬ g.Holds kind.identity) (x : Fin g.shape.len) :
      x ∈ g.beyond kind kind.identity := by
    rw [holds_iff kind h.allOrdered hordered] at hnone
    rw [beyond_eq kind h.allOrdered hordered]
    exact lt_of_le_of_ne ((h x).level_identity_le kind) fun heq => hnone ⟨x, heq⟩
  refine ⟨?_, ?_, ?_⟩
  · rw [or_iff_not_imp_left]
    rintro hnone ⟨_, hbox⟩
    exact hbox p (Shape.inBox_self radius p) (hbeyond hnone p)
  · rw [or_iff_not_imp_left]
    rintro hnone ⟨_, hmissed⟩
    refine hmissed _ g.shape.first_mem_boundary ?_
    exact (Shape.linked_univ connectivity p _).mono fun x _ => hbeyond hnone x
  · rintro ⟨⟨y, hlinked, _⟩, _⟩
    have hp := hlinked.mem_left
    rw [beyond_eq kind h.allOrdered hopposite] at hp
    have hbound := (h p).level_identity_le kind.opposite
    rw [Kind.level_opposite, Kind.level_opposite, neg_le_neg_iff] at hbound
    exact hbound.not_gt hp

theorem holds_of_bounded (g : Grid α) (kind : Kind) (connectivity : Connectivity) {radius : Nat}
    (hradius : radius ≤ maxRadius) (h : AllBounded g.data) :
    (∃ filtered, g.filterBox radius kind = .ok (g.withData filtered) ∧
      ∀ p, g.Holds (filtered.get p)) ∧
    (∀ p, g.Holds ((g.restoredFromBoundary kind connectivity).get p)) ∧
    (∃ simplified, g.simplify kind radius connectivity = .ok (g.withData simplified) ∧
      ∀ p, g.Holds (simplified.get p)) := by
  have hidentity (kind : Kind) := (h ⟨0, g.shape.len_pos⟩).ordered_identity kind
  have hspared (p) := holds_or_not_of_bounded g kind radius connectivity h p
  obtain ⟨filtered, hfilter, hfiltered⟩ :=
    filterBox_holds_iff g kind hradius h.allOrdered (hidentity kind)
  obtain ⟨simplified, hsimplify, hsimplified⟩ :=
    simplify_holds_iff g kind connectivity hradius h.allOrdered (hidentity kind.opposite)
  refine ⟨⟨filtered, hfilter, fun p => ?_⟩, fun p => ?_, simplified, hsimplify, fun p => ?_⟩
  · exact (hfiltered p).mpr (hspared p).1
  · rw [restoredFromBoundary_holds_iff g kind connectivity h.allOrdered (hidentity kind)]
    exact (hspared p).2.1
  · exact (hsimplified p).mpr (.inr (hspared p).2.2)

/-! ## All operators -/

/-- What an operator gives an element compares equal to some value of the grid, except where the
last finite value stands in for one: the grid does not hold it, and a box that sticks out, an
enclosed element or a propped component leaves nothing else. -/
theorem operators_hold_iff (g : Grid α) (connectivity : Connectivity) {radius : Nat}
    (hradius : radius ≤ maxRadius) (h : AllOrdered g.data)
    (hends : ∀ kind : Kind, Pixel.Ordered (kind.identity : α)) :
    (∃ eroded, g.erodeBox radius = .ok (g.withData eroded) ∧ ∀ p,
      g.Holds (eroded.get p) ↔ g.Holds Pixel.maxValue ∨ ¬ g.Swamped .erosion radius p) ∧
    (∃ dilated, g.dilateBox radius = .ok (g.withData dilated) ∧ ∀ p,
      g.Holds (dilated.get p) ↔ g.Holds Pixel.minValue ∨ ¬ g.Swamped .dilation radius p) ∧
    (∃ filled, g.fillHoles connectivity = .ok (g.withData filled) ∧ ∀ p,
      g.Holds (filled.get p) ↔ g.Holds Pixel.maxValue ∨ ¬ g.Enclosed .erosion connectivity p) ∧
    (∃ ground, g.grindPeaks connectivity = .ok (g.withData ground) ∧ ∀ p,
      g.Holds (ground.get p) ↔ g.Holds Pixel.minValue ∨ ¬ g.Enclosed .dilation connectivity p) ∧
    (∃ opened, g.openingByReconstruction radius connectivity = .ok (g.withData opened) ∧ ∀ p,
      g.Holds (opened.get p) ↔
        g.Holds Pixel.maxValue ∨ ¬ g.Propped .dilation radius connectivity p) ∧
    (∃ closed, g.closingByReconstruction radius connectivity = .ok (g.withData closed) ∧ ∀ p,
      g.Holds (closed.get p) ↔
        g.Holds Pixel.minValue ∨ ¬ g.Propped .erosion radius connectivity p) :=
  ⟨filterBox_holds_iff g .erosion hradius h (hends _),
    filterBox_holds_iff g .dilation hradius h (hends _),
    ⟨_, fillHoles_eq g connectivity,
      restoredFromBoundary_holds_iff g .erosion connectivity h (hends _)⟩,
    ⟨_, grindPeaks_eq g connectivity,
      restoredFromBoundary_holds_iff g .dilation connectivity h (hends _)⟩,
    simplify_holds_iff g .dilation connectivity hradius h (hends _),
    simplify_holds_iff g .erosion connectivity hradius h (hends _)⟩

/-- Two elements on one axis, both positive infinity. -/
def summit : Grid (Binary .single) where
  shape := ⟨[2], by decide, by decide, by decide⟩
  len_lt := by decide
  data := #v[Binary.infinite false, Binary.infinite false]

theorem erodeBox_summit_holds_iff :
    1 ≤ maxRadius ∧ AllOrdered summit.data ∧
      (∀ kind : Kind, Pixel.Ordered (kind.identity : Binary .single)) ∧
      ∃ eroded, summit.erodeBox 1 = .ok (summit.withData eroded) ∧ ∀ p,
        summit.Holds (eroded.get p) ↔
          summit.Holds Pixel.maxValue ∨ ¬ summit.Swamped .erosion 1 p :=
  have hordered : AllOrdered summit.data := allOrdered_binary_iff.mpr (by decide +kernel)
  ⟨by decide, hordered, Kind.ordered_identity_binary,
    (operators_hold_iff summit .face (by decide) hordered Kind.ordered_identity_binary).1⟩

/-- From ∞, ∞ erosion by the radius 1 makes the greatest finite number, which the grid does not
hold. -/
theorem erodeBox_summit_not_holds :
    1 ≤ maxRadius ∧ (∀ p, summit.data.get p ≠ .nan) ∧
      ∃ eroded, summit.erodeBox 1 = .ok (summit.withData eroded) ∧
        ∃ p, eroded.get p = .largest false ∧ ¬ summit.Holds (eroded.get p) :=
  ⟨by decide, by decide +kernel, _, rfl, ⟨0, by decide⟩, by decide +kernel, by decide +kernel⟩

end Grid

end Morphology
