import Morphology.Proofs.Grid.Access
import Morphology.Proofs.Reconstruction.Rounds
import Morphology.Proofs.Shape.Boxes

/-! Regional extrema are the plateaus without a way out. Plateaus are never computed: the elements
that see a way out are restored together with their plateaus, and the others stay behind. -/

namespace Morphology

section Plateaus

variable {n : Nat} {adjacent : Fin n → Fin n → Prop} {value marker : Fin n → Int} {p q : Fin n}
  {t : Int}

def Escapes (adjacent : Fin n → Fin n → Prop) (value : Fin n → Int) (p : Fin n) : Prop :=
  ∃ q, adjacent p q ∧ value p < value q

/-- Some element at the same height, joined through elements at that height, has a higher
neighbor. -/
def PlateauEscapes (adjacent : Fin n → Fin n → Prop) (value : Fin n → Int) (t : Int)
    (p : Fin n) : Prop :=
  ∃ x, Linked adjacent {y | value y = t} p x ∧ Escapes adjacent value x

theorem linked_plateau (hnone : ¬ PlateauEscapes adjacent value (value p) p)
    (h : Linked adjacent {x | value p ≤ value x} p q) :
    Linked adjacent {x | value x = value p} p q := by
  refine h.mem_of_closed (T := {x | Linked adjacent {y | value y = value p} p x}) (.self rfl) ?_
  intro x hx y hy hxy
  have hxp : value x = value p := Linked.mem_right hx
  have hyx : ¬ value x < value y := fun hlt => hnone ⟨x, hx, y, hxy, hlt⟩
  exact Linked.step hx hxy (le_antisymm (by omega) hy)

theorem exists_lt_of_not_plateauEscapes (hconnected : ∀ x y, Linked adjacent Set.univ x y)
    (huneven : ∃ x y, value x ≠ value y)
    (hnone : ¬ PlateauEscapes adjacent value (value p) p) : ∃ q, value q < value p := by
  by_contra hlowest
  push Not at hlowest
  have hsame (q : Fin n) : value q = value p := by
    have hinside : Linked adjacent {y | value y = value p} p q :=
      linked_plateau hnone ((hconnected p q).mono fun x _ => hlowest x)
    exact hinside.mem_right
  obtain ⟨x, y, hxy⟩ := huneven
  exact hxy ((hsame x).trans (hsame y).symm)

/-- What is reached from the elements with higher neighbors, when all others start at one level,
lies below its own height, or on a plateau with a way out, or not above that level. -/
theorem Reached.lt_or_plateauEscapes {blank : Int} (h : Reached adjacent value marker t p)
    (hsymm : ∀ x y, adjacent x y → adjacent y x)
    (hblank : ∀ x, ¬ Escapes adjacent value x → marker x = blank) :
    t < value p ∨ PlateauEscapes adjacent value t p ∨ t ≤ blank := by
  induction h with
  | @source p hmarker hmask =>
      rcases lt_or_eq_of_le hmask with hlt | rfl
      · exact .inl hlt
      · refine .inr ?_
        by_cases hescapes : Escapes adjacent value p
        · exact .inl ⟨p, .self rfl, hescapes⟩
        · rw [hblank p hescapes] at hmarker
          exact .inr hmarker
  | @step p q _ hpq hmask ih =>
      rcases lt_or_eq_of_le hmask with hlt | rfl
      · exact .inl hlt
      · refine .inr ?_
        rcases ih with hlt | ⟨x, hx, hescapes⟩ | hblank
        · exact .inl ⟨q, .self rfl, p, hsymm p q hpq, hlt⟩
        · have hfirst : Linked adjacent {y | value y = value q} q p :=
            .step (.self rfl) (hsymm p q hpq) hx.mem_left
          exact .inl ⟨x, hfirst.trans hx, hescapes⟩
        · exact .inr hblank

/-- A plateau is restored to its height exactly if it has a way out, or lies no higher than the
level at which elements without one start. -/
theorem reached_iff_plateauEscapes {blank : Int} (hsymm : ∀ x y, adjacent x y → adjacent y x)
    (hkept : ∀ x, Escapes adjacent value x → marker x = value x)
    (hblank : ∀ x, ¬ Escapes adjacent value x → marker x = blank) :
    Reached adjacent value marker (value p) p ↔
      PlateauEscapes adjacent value (value p) p ∨ value p ≤ blank := by
  constructor
  · intro h
    exact (h.lt_or_plateauEscapes hsymm hblank).resolve_left (lt_irrefl _)
  · intro h
    rcases h with ⟨x, hx, hescapes⟩ | hlow
    · have hxp : value x = value p := hx.mem_right
      refine reached_iff_exists_linked.mpr ⟨x, ?_, (hx.symm hsymm).mono fun y hy => ?_⟩
      · rw [hkept x hescapes, hxp]
      · exact (show value y = value p from hy).ge
    · by_cases hescapes : Escapes adjacent value p
      · exact .source (hkept p hescapes).ge le_rfl
      · exact .source (hlow.trans (hblank p hescapes).ge) le_rfl

end Plateaus

variable {α : Type} [Pixel α]

namespace Grid

/-! ## Even grids -/

variable {g : Grid α} {kind : Kind} {connectivity : Connectivity}

theorem foldl_combine_spec (kind : Kind) (h : AllOrdered g.data) :
    Pixel.Ordered (g.data.foldl kind.combine g.first) ∧
      ∀ t, t ≤ kind.level (g.data.foldl kind.combine g.first) ↔
        ∃ p, t ≤ levels kind g.data p := by
  have hfirst : g.first = g.data.get ⟨0, g.shape.len_pos⟩ := rfl
  have hall : ∀ a ∈ g.data.toList, Pixel.Ordered a := by
    intro a ha
    obtain ⟨p, rfl⟩ := (mem_toList_iff_exists_get g.data).mp ha
    exact h p
  rw [← Vector.foldl_toList, hfirst]
  refine ⟨Kind.ordered_foldl_combine kind _ (h _), fun t => ?_⟩
  rw [Kind.le_level_foldl_combine_iff kind hall (h _)]
  simp only [mem_toList_iff_exists_get, exists_exists_eq_and]
  constructor
  · rintro (hp | hp)
    · exact ⟨_, hp⟩
    · exact hp
  · exact .inr

theorem eq_minValue_maxValue_iff (h : AllOrdered g.data) :
    Pixel.eq g.minValue g.maxValue = true ↔
      ∀ p q, Pixel.eq (g.data.get p) (g.data.get q) = true := by
  obtain ⟨hmaxOrdered, hmax⟩ := foldl_combine_spec .dilation h
  obtain ⟨hminOrdered, hmin⟩ := foldl_combine_spec .erosion h
  have hneg (a : α) : Kind.erosion.level a = -Kind.dilation.level a :=
    Kind.level_opposite .dilation a
  have heq := Kind.eq_iff .dilation hminOrdered hmaxOrdered
  change Pixel.eq (g.data.foldl Kind.erosion.combine g.first)
    (g.data.foldl Kind.dilation.combine g.first) = true ↔ _
  simp only [heq, Kind.eq_iff .dilation (h _) (h _)]
  constructor
  · intro hsame p q
    have hhigh (x) := (hmax _).mpr ⟨x, le_rfl⟩
    have hlow (x) := (hmin _).mpr ⟨x, le_rfl⟩
    simp only [levels, hneg] at hhigh hlow
    have := hhigh p
    have := hhigh q
    have := hlow p
    have := hlow q
    omega
  · intro hsame
    obtain ⟨x, hx⟩ := (hmax _).mp le_rfl
    obtain ⟨y, hy⟩ := (hmin _).mp le_rfl
    have hxmax := (hmin _).mpr ⟨x, le_rfl⟩
    have hymax := (hmax _).mpr ⟨y, le_rfl⟩
    simp only [levels, hneg] at hx hy hxmax hymax
    have := hsame x y
    omega

/-! ## Elements with a way out -/

theorem escapes_iff (kind : Kind) (connectivity : Connectivity) (h : AllOrdered g.data)
    (p : Fin g.shape.len) :
    g.escapes kind (neighborOffsets g.shape.ndim connectivity) p = true ↔
      Escapes (g.shape.Adjacent connectivity) (levels kind g.data) p := by
  have hany : g.escapes kind (neighborOffsets g.shape.ndim connectivity) p = true ↔
      ∃ a ∈ g.neighborValues connectivity p, kind.precedes (g.data.get p) a = true := by
    simp only [escapes, neighborValues, List.any_eq_true, List.mem_filterMap, Option.any_eq_true]
    constructor
    · rintro ⟨offset, hoffset, a, ha, hprecedes⟩
      exact ⟨a, ⟨offset, hoffset, ha⟩, hprecedes⟩
    · rintro ⟨a, ⟨offset, hoffset, ha⟩, hprecedes⟩
      exact ⟨offset, hoffset, a, ha, hprecedes⟩
  rw [hany]
  simp only [mem_neighborValues_iff, Escapes, levels, ← Kind.precedes_iff (h _) (h _)]
  constructor
  · rintro ⟨_, ⟨q, hadj, rfl⟩, hprecedes⟩
    exact ⟨q, hadj, hprecedes⟩
  · rintro ⟨q, hadj, hprecedes⟩
    exact ⟨_, ⟨q, hadj, rfl⟩, hprecedes⟩

theorem get_escapeMarker (g : Grid α) (kind : Kind) (connectivity : Connectivity)
    (p : Fin g.shape.len) :
    (g.escapeMarker kind connectivity).get p =
      if g.escapes kind (neighborOffsets g.shape.ndim connectivity) p then g.data.get p
      else kind.identity :=
  get_ofFn _ p

theorem allOrdered_escapeMarker (connectivity : Connectivity) (h : AllOrdered g.data)
    (hidentity : Pixel.Ordered (kind.identity : α)) :
    AllOrdered (g.escapeMarker kind connectivity) := by
  intro p
  rw [get_escapeMarker]
  split
  · exact h p
  · exact hidentity

/-- What is restored of a grid from the elements with a way out. -/
def restoredPlateaus (g : Grid α) (kind : Kind) (connectivity : Connectivity) :
    Vector α g.shape.len :=
  (propagate kind (g.shape.schedule connectivity) g.data (g.escapeMarker kind connectivity)).1

/-- Values for all elements fit the extents of the grid. -/
theorem ownMarker_escaping (g : Grid α) (kind : Kind) (connectivity : Connectivity) :
    g.ownMarker kind connectivity .escaping =
      .ok (g.withData (g.escapeMarker kind connectivity)) := by
  rw [ownMarker, ofList_dims]
  rfl

theorem regionalExtrema_eq (g : Grid α) (kind : Kind) (connectivity : Connectivity) :
    g.regionalExtrema kind connectivity =
      .ok (if Pixel.eq g.minValue g.maxValue then ⟨g.shape, g.len_lt, g.data.map fun _ => true⟩
        else ⟨g.shape, g.len_lt,
          g.data.zipWith (fun value restored => !Pixel.eq value restored)
            (g.restoredPlateaus kind connectivity)⟩) := by
  rw [regionalExtrema, extremaFrom]
  split
  · rfl
  · rw [restoredFrom_unchecked (ownMarker_escaping g kind connectivity)]
    exact congrArg (Except.mapError OperatorError.grid) (zipWith_withData g _ g.data _)

/-- An element is restored exactly if its plateau has a way out, or lies no higher than the identity
from which the others start. -/
theorem restored_iff_plateauEscapes (connectivity : Connectivity) (h : AllOrdered g.data)
    (hidentity : Pixel.Ordered (kind.identity : α)) (p : Fin g.shape.len) :
    Pixel.eq (g.data.get p) ((g.restoredPlateaus kind connectivity).get p) = true ↔
      PlateauEscapes (g.shape.Adjacent connectivity) (levels kind g.data)
          (levels kind g.data p) p ∨
        levels kind g.data p ≤ kind.level (kind.identity : α) := by
  have hmarker := allOrdered_escapeMarker connectivity h hidentity
  obtain ⟨hordered, hlevel⟩ :
      AllOrdered (g.restoredPlateaus kind connectivity) ∧ ∀ t p, t ≤ levels kind _ p ↔ _ :=
    propagate_schedule_spec kind connectivity h hmarker
  have hkept (x) (hx : Escapes (g.shape.Adjacent connectivity) (levels kind g.data) x) :
      levels kind (g.escapeMarker kind connectivity) x = levels kind g.data x := by
    rw [levels, get_escapeMarker, if_pos ((escapes_iff kind connectivity h x).mpr hx)]
    rfl
  have hblank (x) (hx : ¬ Escapes (g.shape.Adjacent connectivity) (levels kind g.data) x) :
      levels kind (g.escapeMarker kind connectivity) x = kind.level (kind.identity : α) := by
    rw [levels, get_escapeMarker,
      if_neg fun hescapes => hx ((escapes_iff kind connectivity h x).mp hescapes)]
  rw [Kind.eq_iff kind (h p) (hordered p),
    ← reached_iff_plateauEscapes (fun _ _ => Shape.Adjacent.symm) hkept hblank, ← hlevel]
  constructor
  · exact fun hsame => hsame.le
  · intro hreached
    exact le_antisymm hreached ((hlevel _ p).mp le_rfl).le_mask

/-! ## Regional extrema -/

/-- The elements that elements of the same value join to an element. -/
def plateau (g : Grid α) (connectivity : Connectivity) (p : Fin g.shape.len) :
    Set (Fin g.shape.len) :=
  {x | Linked (g.shape.Adjacent connectivity)
    {y | Pixel.eq (g.data.get y) (g.data.get p) = true} p x}

theorem plateauEscapes_iff (kind : Kind) (connectivity : Connectivity) (h : AllOrdered g.data)
    (p : Fin g.shape.len) :
    PlateauEscapes (g.shape.Adjacent connectivity) (levels kind g.data) (levels kind g.data p) p ↔
      ∃ x ∈ g.plateau connectivity p,
        Escapes (g.shape.Adjacent connectivity) (levels kind g.data) x := by
  simp only [PlateauEscapes, plateau, Kind.eq_iff kind (h _) (h p)]
  rfl

theorem exists_levels_lt (kind : Kind) (connectivity : Connectivity) (h : AllOrdered g.data)
    (huneven : ¬ ∀ x y, Pixel.eq (g.data.get x) (g.data.get y) = true) {p : Fin g.shape.len}
    (hnone : ∀ x ∈ g.plateau connectivity p,
      ¬ Escapes (g.shape.Adjacent connectivity) (levels kind g.data) x) :
    ∃ q, levels kind g.data q < levels kind g.data p := by
  apply exists_lt_of_not_plateauEscapes (Shape.linked_univ connectivity)
  · by_contra hsame
    push Not at hsame
    exact huneven fun x y => (Kind.eq_iff kind (h x) (h y)).mpr (hsame x y)
  · rw [plateauEscapes_iff kind connectivity h]
    simpa only [not_exists, not_and] using hnone

/-- Marked are the elements whose plateaus have no way out in the direction of the kind, save those
of an uneven grid that do not lie above the identity. -/
theorem regionalExtrema_spec_of_ordered (kind : Kind) (connectivity : Connectivity)
    (h : AllOrdered g.data) (hidentity : Pixel.Ordered (kind.identity : α)) :
    ∃ flags : Vector Bool g.shape.len,
      g.regionalExtrema kind connectivity = .ok ⟨g.shape, g.len_lt, flags⟩ ∧
        ∀ p, flags.get p = true ↔
          (∀ x ∈ g.plateau connectivity p,
            ¬ Escapes (g.shape.Adjacent connectivity) (levels kind g.data) x) ∧
          ((∀ x y, Pixel.eq (g.data.get x) (g.data.get y) = true) ∨
            kind.level (kind.identity : α) < levels kind g.data p) := by
  rw [regionalExtrema_eq]
  split
  · next hflat =>
      refine ⟨_, rfl, fun p => ?_⟩
      have hsame := (eq_minValue_maxValue_iff h).mp hflat
      have hnone (x) : ¬ Escapes (g.shape.Adjacent connectivity) (levels kind g.data) x := by
        rintro ⟨y, _, hlt⟩
        have heq := (Kind.eq_iff kind (h x) (h y)).mp (hsame x y)
        exact hlt.ne heq
      rw [get_map]
      exact iff_of_true rfl ⟨fun x _ => hnone x, .inl hsame⟩
  · next huneven =>
      refine ⟨_, rfl, fun p => ?_⟩
      rw [eq_minValue_maxValue_iff h] at huneven
      rw [get_zipWith, Bool.not_eq_true', ← Bool.not_eq_true,
        restored_iff_plateauEscapes connectivity h hidentity,
        plateauEscapes_iff kind connectivity h, or_iff_right huneven, not_or, not_le]
      simp only [not_exists, not_and]

/-- Of bounded values, the elements whose plateaus have no way out are all marked. -/
theorem regionalExtrema_spec (kind : Kind) (connectivity : Connectivity) (h : AllBounded g.data) :
    ∃ flags : Vector Bool g.shape.len,
      g.regionalExtrema kind connectivity = .ok ⟨g.shape, g.len_lt, flags⟩ ∧
        ∀ p, flags.get p = true ↔ ∀ x ∈ g.plateau connectivity p,
          ¬ Escapes (g.shape.Adjacent connectivity) (levels kind g.data) x := by
  have hidentity := (h ⟨0, g.shape.len_pos⟩).ordered_identity kind
  obtain ⟨flags, hextrema, hflags⟩ :=
    regionalExtrema_spec_of_ordered kind connectivity h.allOrdered hidentity
  refine ⟨flags, hextrema, fun p => ?_⟩
  rw [hflags, and_iff_left_iff_imp]
  intro hnone
  by_contra hlow
  obtain ⟨hnot, hle⟩ := not_or.mp hlow
  obtain ⟨q, hq⟩ := exists_levels_lt kind connectivity h.allOrdered hnot hnone
  exact hle (((h q).level_identity_le kind).trans_lt hq)

theorem regionalExtrema_plateauEscapes (kind : Kind) (connectivity : Connectivity)
    (h : AllBounded g.data) :
    ∃ flags : Vector Bool g.shape.len,
      g.regionalExtrema kind connectivity = .ok ⟨g.shape, g.len_lt, flags⟩ ∧
        ∀ p, flags.get p = true ↔ ¬ PlateauEscapes (g.shape.Adjacent connectivity)
          (levels kind g.data) (levels kind g.data p) p := by
  obtain ⟨flags, hextrema, hflags⟩ := regionalExtrema_spec kind connectivity h
  refine ⟨flags, hextrema, fun p => ?_⟩
  rw [hflags, plateauEscapes_iff kind connectivity h.allOrdered]
  simp only [not_exists, not_and]

/-- Of integers, an element is a regional maximum exactly if no element of its plateau has a higher
neighbor, and a regional minimum exactly if none has a lower one; in a flat grid all elements are
both. -/
theorem regionalExtrema_iff_plateau {range : IntRange} (g : Grid (Sample range))
    (connectivity : Connectivity) :
    (∃ maxima : Vector Bool g.shape.len,
      g.regionalMaxima connectivity = .ok ⟨g.shape, g.len_lt, maxima⟩ ∧
        ∀ p, maxima.get p = true ↔ ∀ x ∈ g.plateau connectivity p,
          ∀ y, g.shape.Adjacent connectivity x y → (g.data.get y).val ≤ (g.data.get x).val) ∧
    (∃ minima : Vector Bool g.shape.len,
      g.regionalMinima connectivity = .ok ⟨g.shape, g.len_lt, minima⟩ ∧
        ∀ p, minima.get p = true ↔ ∀ x ∈ g.plateau connectivity p,
          ∀ y, g.shape.Adjacent connectivity x y → (g.data.get x).val ≤ (g.data.get y).val) ∧
    ((∀ p q, g.data.get p = g.data.get q) →
      g.regionalMaxima connectivity = .ok (g.map fun _ => true) ∧
        g.regionalMinima connectivity = .ok (g.map fun _ => true)) := by
  obtain ⟨maxima, hmaxima, hmaximal⟩ :=
    regionalExtrema_spec .dilation connectivity (allBounded_sample g.data)
  obtain ⟨minima, hminima, hminimal⟩ :=
    regionalExtrema_spec .erosion connectivity (allBounded_sample g.data)
  refine ⟨⟨maxima, hmaxima, fun p => ?_⟩, ⟨minima, hminima, fun p => ?_⟩, fun hflat => ?_⟩
  · simp only [hmaximal, Escapes, levels, Kind.level, Sample.rank_eq, Option.getD_some, not_exists,
      not_and, not_lt]
  · simp only [hminimal, Escapes, levels, Kind.level, Sample.rank_eq, Option.getD_some, not_exists,
      not_and, not_lt, neg_le_neg_iff]
  · have hequal : Pixel.eq g.minValue g.maxValue = true := by
      rw [eq_minValue_maxValue_iff (allOrdered_sample g.data)]
      intro p q
      rw [hflat p q, Kind.eq_iff .dilation (Sample.ordered _) (Sample.ordered _)]
    exact ⟨if_pos hequal, if_pos hequal⟩

/-- A flat grid at the least value, with which elements without a way out are filled, too. -/
def lowland : Grid (Sample .u8) where
  shape := ⟨[3, 2], by decide, by decide, by decide⟩
  len_lt := by decide
  data := Vector.replicate _ (Sample.nearest .u8 0)

theorem regionalExtrema_lowland :
    (∀ p q, lowland.data.get p = lowland.data.get q) ∧
      lowland.regionalMaxima .face = .ok (lowland.map fun _ => true) ∧
      lowland.regionalMinima .face = .ok (lowland.map fun _ => true) :=
  have hflat : ∀ p q, lowland.data.get p = lowland.data.get q := by decide +kernel
  ⟨hflat, (regionalExtrema_iff_plateau lowland .face).2.2 hflat⟩

end Grid

end Morphology
