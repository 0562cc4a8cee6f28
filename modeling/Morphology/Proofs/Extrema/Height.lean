import Morphology.Proofs.Reconstruction.Result
import Morphology.Proofs.Shape.Boxes

/-! Suppression by a height keeps a level exactly on the components that rise at least the height
above it. Heights therefore add up, whether or not a sum stops at the end of the range: the values
that stop there are the lowest of all. -/

namespace Morphology

section Rises

variable {n : Nat} {adjacent : Fin n → Fin n → Prop}
  {value first low other : Fin n → Int} {height a b floor t : Int} {p : Fin n}

/-- The component of an element at a level holds an element the height above that level. -/
def Rises (adjacent : Fin n → Fin n → Prop) (value : Fin n → Int) (height t : Int) (p : Fin n) :
    Prop :=
  ∃ m, Linked adjacent {x | t ≤ value x} p m ∧ t + height ≤ value m

theorem Rises.le_value (h : Rises adjacent value height t p) : t ≤ value p := by
  obtain ⟨m, hlinked, _⟩ := h
  exact hlinked.mem_left

theorem rises_of_add_le (hheight : 0 ≤ height) (h : t + height ≤ value p) :
    Rises adjacent value height t p := by
  have hp : t ≤ value p := by omega
  exact ⟨p, .self hp, h⟩

/-- Values that hold a level above the floor exactly on the components that rise the height above
it. -/
structure IsLowered (adjacent : Fin n → Fin n → Prop) (value : Fin n → Int) (height floor : Int)
    (low : Fin n → Int) : Prop where
  height_nonneg : 0 ≤ height
  floor_le : ∀ p, floor ≤ value p
  le_iff : ∀ t p, t ≤ low p ↔ t ≤ floor ∨ Rises adjacent value height t p

namespace IsLowered

theorem le_iff_rises (h : IsLowered adjacent value height floor low) (ht : floor < t) (p : Fin n) :
    t ≤ low p ↔ Rises adjacent value height t p := by
  rw [h.le_iff, or_iff_right (not_le.mpr ht)]

theorem floor_le_low (h : IsLowered adjacent value height floor low) (p : Fin n) :
    floor ≤ low p :=
  (h.le_iff _ p).mpr (.inl le_rfl)

theorem low_le (h : IsLowered adjacent value height floor low) (p : Fin n) : low p ≤ value p := by
  rcases (h.le_iff _ p).mp le_rfl with hfloor | hrises
  · exact hfloor.trans (h.floor_le p)
  · exact hrises.le_value

theorem value_le (h : IsLowered adjacent value height floor low) (p : Fin n) :
    value p ≤ low p + height := by
  have hrises : Rises adjacent value height (value p - height) p :=
    rises_of_add_le h.height_nonneg (by omega)
  have hlow := (h.le_iff _ p).mpr (.inr hrises)
  omega

theorem unique (h : IsLowered adjacent value height floor low)
    (hother : IsLowered adjacent value height floor other) : low = other := by
  funext p
  have hsame (t : Int) : t ≤ low p ↔ t ≤ other p := (h.le_iff t p).trans (hother.le_iff t p).symm
  exact le_antisymm ((hsame _).mp le_rfl) ((hsame _).mpr le_rfl)

theorem zero (hfloor : ∀ p, floor ≤ value p) : IsLowered adjacent value 0 floor value := by
  refine ⟨le_rfl, hfloor, ?_⟩
  intro t p
  constructor
  · intro ht
    exact .inr (rises_of_add_le le_rfl (by omega))
  · intro h
    rcases h with ht | hrises
    · exact ht.trans (hfloor p)
    · exact hrises.le_value

theorem le_low_of_linked (h : IsLowered adjacent value height floor low)
    (hsymm : ∀ x y, adjacent x y → adjacent y x) (hrises : Rises adjacent value height t p)
    {x : Fin n} (hx : Linked adjacent {y | t ≤ value y} p x) : t ≤ low x := by
  obtain ⟨m, hlinked, hm⟩ := hrises
  exact (h.le_iff t x).mpr (.inr ⟨m, (hx.symm hsymm).trans hlinked, hm⟩)

theorem rises_iff (h : IsLowered adjacent value a floor first)
    (hsymm : ∀ x y, adjacent x y → adjacent y x) (hb : 0 ≤ b) (ht : floor < t) :
    Rises adjacent first b t p ↔ Rises adjacent value (a + b) t p := by
  have ha := h.height_nonneg
  constructor
  · intro htwice
    obtain ⟨m, hlinked, hm⟩ := htwice
    obtain ⟨x, hmx, hx⟩ := (h.le_iff_rises (by omega) m).mp hm
    have hpm : Linked adjacent {y | t ≤ value y} p m :=
      hlinked.mono fun y hy => le_trans hy (h.low_le y)
    have hupper : Linked adjacent {y | t ≤ value y} m x :=
      hmx.mono fun y hy => (by omega : t ≤ t + b).trans hy
    exact ⟨x, hpm.trans hupper, by omega⟩
  · intro honce
    obtain ⟨m, hlinked, hm⟩ := honce
    have hrises : Rises adjacent value a t p := ⟨m, hlinked, by omega⟩
    have hinside : Linked adjacent {y | t ≤ first y} p m :=
      hlinked.of_component fun x hx => h.le_low_of_linked hsymm hrises hx
    have hpeak := h.value_le m
    exact ⟨m, hinside, by omega⟩

/-- Lowering what is already lowered is lowering by the sum of both heights. -/
theorem trans (h : IsLowered adjacent value a floor first)
    (hsymm : ∀ x y, adjacent x y → adjacent y x) (hlow : IsLowered adjacent first b floor low) :
    IsLowered adjacent value (a + b) floor low := by
  have hb := hlow.height_nonneg
  refine ⟨Int.add_nonneg h.height_nonneg hb, h.floor_le, ?_⟩
  intro t p
  rw [hlow.le_iff]
  rcases le_or_gt t floor with ht | ht
  · exact iff_of_true (.inl ht) (.inl ht)
  · rw [h.rises_iff hsymm hb ht]

end IsLowered

end Rises

namespace Grid

/-! ## Both transforms -/

section Transform

variable {α : Type} [Pixel α]

theorem get_shiftedMarker_dilation (g : Grid α) (height : α) (p : Fin g.shape.len) :
    (g.shiftedMarker height .dilation).get p = Pixel.sub (g.data.get p) height :=
  get_map _ g.data p

theorem get_shiftedMarker_erosion (g : Grid α) (height : α) (p : Fin g.shape.len) :
    (g.shiftedMarker height .erosion).get p = Pixel.add (g.data.get p) height :=
  get_map _ g.data p

/-- What is left of a grid when it is restored from below by a height. -/
def suppressed (g : Grid α) (kind : Kind) (height : α) (connectivity : Connectivity) :
    Vector α g.shape.len :=
  (propagate kind (g.shape.schedule connectivity) g.data (g.shiftedMarker height kind)).1

theorem ownMarker_shifted (g : Grid α) (kind : Kind) (connectivity : Connectivity) {height : α}
    (h : checkHeight height = .ok ()) :
    g.ownMarker kind connectivity (.shifted height) =
      .ok (g.withData (g.shiftedMarker height kind)) := by
  rw [ownMarker, h]
  rfl

theorem restoredFrom_shifted (g : Grid α) (kind : Kind) (connectivity : Connectivity) {height : α}
    (h : checkHeight height = .ok ()) :
    g.restoredFrom kind connectivity false (.shifted height) =
      .ok (g.withData (g.suppressed kind height connectivity)) :=
  restoredFrom_unchecked (ownMarker_shifted g kind connectivity h)

end Transform

variable {range : IntRange} {height : Sample range}

theorem zero_le_eq_decide (height : Sample range) :
    Pixel.le Pixel.zero height = decide (0 ≤ height.val) := by
  rw [Pixel.le_eq_decide (Sample.rank_eq _) (Sample.rank_eq _), Sample.zero_val]

theorem checkHeight_eq_ok (h : 0 ≤ height.val) : checkHeight height = .ok () := by
  rw [checkHeight, zero_le_eq_decide, if_pos (decide_eq_true h)]

theorem checkHeight_eq_error (h : height.val < 0) :
    checkHeight height = .error (.negativeHeight height) := by
  rw [checkHeight, zero_le_eq_decide, decide_eq_false (not_le.mpr h)]
  rfl

theorem hMaxima_eq_ok (g : Grid (Sample range)) (connectivity : Connectivity)
    (h : 0 ≤ height.val) :
    g.hMaxima height connectivity =
      .ok (g.withData (g.suppressed .dilation height connectivity)) :=
  restoredFrom_shifted g .dilation connectivity (checkHeight_eq_ok h)

theorem hMinima_eq_ok (g : Grid (Sample range)) (connectivity : Connectivity)
    (h : 0 ≤ height.val) :
    g.hMinima height connectivity =
      .ok (g.withData (g.suppressed .erosion height connectivity)) :=
  restoredFrom_shifted g .erosion connectivity (checkHeight_eq_ok h)

/-- The marker lies the height below the mask, but not below the identity. -/
theorem levels_shiftedMarker (g : Grid (Sample range)) (kind : Kind) (h : 0 ≤ height.val)
    (p : Fin g.shape.len) :
    levels kind (g.shiftedMarker height kind) p =
      max (kind.level (kind.identity : Sample range)) (levels kind g.data p - height.val) := by
  have hlow := (g.data.get p).lo_le
  have hhigh := (g.data.get p).le_hi
  cases kind with
  | dilation =>
      rw [levels_dilation_sample, levels_dilation_sample, get_shiftedMarker_dilation,
        Sample.sub_val]
      change _ = max (Pixel.minValue : Sample range).val _
      rw [Sample.minValue_val]
      omega
  | erosion =>
      rw [levels_erosion_sample, levels_erosion_sample, get_shiftedMarker_erosion, Sample.add_val]
      change _ = max (-(Pixel.maxValue : Sample range).val) _
      rw [Sample.maxValue_val]
      omega

theorem isLowered_suppressed (g : Grid (Sample range)) (kind : Kind) (connectivity : Connectivity)
    (h : 0 ≤ height.val) :
    IsLowered (g.shape.Adjacent connectivity) (levels kind g.data) height.val
      (kind.level (kind.identity : Sample range))
      (levels kind (g.suppressed kind height connectivity)) := by
  have hbounded := allBounded_sample g.data
  obtain ⟨_, hlevel⟩ := propagate_schedule_spec kind connectivity hbounded.allOrdered
    (allOrdered_sample (g.shiftedMarker height kind))
  have hfloor (p) := (hbounded p).level_identity_le kind
  refine ⟨h, hfloor, ?_⟩
  intro t p
  rw [suppressed, hlevel, reached_iff_exists_linked]
  simp only [levels_shiftedMarker g kind h, le_max_iff]
  constructor
  · intro hreached
    obtain ⟨m, ht | ht, hlinked⟩ := hreached
    · exact .inl ht
    · exact .inr ⟨m, Shape.linked_symm hlinked, by omega⟩
  · intro hkept
    rcases hkept with ht | ⟨m, hlinked, hm⟩
    · exact ⟨p, .inl ht, .self (ht.trans (hfloor p))⟩
    · exact ⟨m, .inr (by omega), Shape.linked_symm hlinked⟩

theorem suppressed_suppressed (g : Grid (Sample range)) (kind : Kind) (connectivity : Connectivity)
    {a b sum : Sample range} (ha : 0 ≤ a.val) (hb : 0 ≤ b.val) (hsum : sum.val = a.val + b.val) :
    (g.withData (g.suppressed kind a connectivity)).suppressed kind b connectivity =
      g.suppressed kind sum connectivity := by
  have hfirst := isLowered_suppressed g kind connectivity ha
  have hsecond :=
    isLowered_suppressed (g.withData (g.suppressed kind a connectivity)) kind connectivity hb
  have honce := isLowered_suppressed g kind connectivity (by omega : 0 ≤ sum.val)
  rw [hsum] at honce
  have htwice := hfirst.trans (fun _ _ => Shape.Adjacent.symm) hsecond
  exact eq_of_levels_eq kind (htwice.unique honce)

theorem suppressed_zero (g : Grid (Sample range)) (kind : Kind) (connectivity : Connectivity) :
    g.suppressed kind Pixel.zero connectivity = g.data := by
  have hzero : (Pixel.zero : Sample range).val = 0 := Sample.zero_val
  have hlow := isLowered_suppressed g kind connectivity hzero.ge
  rw [hzero] at hlow
  exact eq_of_levels_eq kind (hlow.unique (.zero hlow.floor_le))

/-! ## Addition of heights -/

/-- Suppressing peaks by one height and then by another is suppressing them by the sum, if the range
holds it, and the height zero changes nothing. The same holds of basins. -/
theorem hMaxima_hMinima_additive (g : Grid (Sample range)) (connectivity : Connectivity)
    {a b sum : Sample range} (ha : 0 ≤ a.val) (hb : 0 ≤ b.val) (hsum : sum.val = a.val + b.val) :
    (∃ first second,
      g.hMaxima a connectivity = .ok first ∧
      first.hMaxima b connectivity = .ok second ∧
      g.hMaxima sum connectivity = .ok second) ∧
    (∃ first second,
      g.hMinima a connectivity = .ok first ∧
      first.hMinima b connectivity = .ok second ∧
      g.hMinima sum connectivity = .ok second) ∧
    g.hMaxima Pixel.zero connectivity = .ok g ∧
    g.hMinima Pixel.zero connectivity = .ok g := by
  have hs : 0 ≤ sum.val := by omega
  have hzero : 0 ≤ (Pixel.zero : Sample range).val := Sample.zero_val.ge
  refine ⟨⟨_, _, hMaxima_eq_ok g connectivity ha, hMaxima_eq_ok _ connectivity hb, ?_⟩,
    ⟨_, _, hMinima_eq_ok g connectivity ha, hMinima_eq_ok _ connectivity hb, ?_⟩, ?_, ?_⟩
  · rw [hMaxima_eq_ok g connectivity hs, suppressed_suppressed g .dilation connectivity ha hb hsum]
    rfl
  · rw [hMinima_eq_ok g connectivity hs, suppressed_suppressed g .erosion connectivity ha hb hsum]
    rfl
  · rw [hMaxima_eq_ok g connectivity hzero, suppressed_zero]
    rfl
  · rw [hMinima_eq_ok g connectivity hzero, suppressed_zero]
    rfl

theorem hMaxima_hMinima_meander_additive :
    0 ≤ (Sample.nearest .u8 3).val ∧ 0 ≤ (Sample.nearest .u8 4).val ∧
      (Sample.nearest .u8 7).val = (Sample.nearest .u8 3).val + (Sample.nearest .u8 4).val ∧
      (∃ first second,
        meander.hMaxima (Sample.nearest .u8 3) .face = .ok first ∧
        first.hMaxima (Sample.nearest .u8 4) .face = .ok second ∧
        meander.hMaxima (Sample.nearest .u8 7) .face = .ok second) ∧
      (∃ first second,
        meander.hMinima (Sample.nearest .u8 3) .face = .ok first ∧
        first.hMinima (Sample.nearest .u8 4) .face = .ok second ∧
        meander.hMinima (Sample.nearest .u8 7) .face = .ok second) ∧
      meander.hMaxima Pixel.zero .face = .ok meander ∧
      meander.hMinima Pixel.zero .face = .ok meander :=
  ⟨by decide, by decide, by decide,
    hMaxima_hMinima_additive meander .face (by decide) (by decide) (by decide)⟩

end Grid

end Morphology
