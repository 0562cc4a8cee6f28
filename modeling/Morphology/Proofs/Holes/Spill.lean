import Morphology.Proofs.Grid.Boundary
import Morphology.Proofs.Reconstruction.Result
import Morphology.Proofs.Shape.Boxes

/-! A filled basin stands at the level at which it spills: the lowest of the highest values met on
the paths to the boundary. A ground peak stands at the highest pass on the paths to the boundary. -/

namespace Morphology

section Passes

variable {n : Nat} {V : Type} [LinearOrder V] {adjacent : Fin n → Fin n → Prop}
  {value : Fin n → V} {target : Set (Fin n)} {p : Fin n} {a : V}

/-- The least values of the paths from an element into a target, one for each path. -/
def pathMinima (adjacent : Fin n → Fin n → Prop) (value : Fin n → V) (target : Set (Fin n))
    (p : Fin n) : Set V :=
  {v | ∃ q ∈ target, ∃ path, IsPath adjacent p q path ∧ IsLeast (value '' {x | x ∈ path}) v}

/-- The greatest values of the paths from an element into a target, one for each path. -/
def pathMaxima (adjacent : Fin n → Fin n → Prop) (value : Fin n → V) (target : Set (Fin n))
    (p : Fin n) : Set V :=
  {v | ∃ q ∈ target, ∃ path, IsPath adjacent p q path ∧ IsGreatest (value '' {x | x ∈ path}) v}

theorem IsPath.left_mem {q : Fin n} {path : List (Fin n)} (h : IsPath adjacent p q path) :
    p ∈ path := by
  induction h with
  | start => simp
  | extend _ _ ih => simp [ih]

theorem isGreatest_pathMinima
    (h : ∀ t, t ≤ a ↔ ∃ q ∈ target, Linked adjacent {x | t ≤ value x} p q) :
    IsGreatest (pathMinima adjacent value target p) a := by
  have hbelow {v : V} (hv : v ∈ pathMinima adjacent value target p) : v ≤ a := by
    obtain ⟨q, hq, path, hpath, hleast⟩ := hv
    refine (h v).mpr ⟨q, hq, linked_iff_exists_path.mpr ⟨path, hpath, ?_⟩⟩
    intro x hx
    exact hleast.2 (Set.mem_image_of_mem value hx)
  obtain ⟨q, hq, hlinked⟩ := (h a).mp le_rfl
  obtain ⟨path, hpath, habove⟩ := linked_iff_exists_path.mp hlinked
  obtain ⟨m, hm, hmin⟩ :=
    Set.exists_min_image {x | x ∈ path} value (List.finite_toSet path) ⟨p, hpath.left_mem⟩
  have hmem : value m ∈ pathMinima adjacent value target p := by
    refine ⟨q, hq, path, hpath, Set.mem_image_of_mem value hm, ?_⟩
    intro w hw
    obtain ⟨x, hx, rfl⟩ := hw
    exact hmin x hx
  have heq : value m = a := le_antisymm (hbelow hmem) (habove m hm)
  exact ⟨heq ▸ hmem, fun v hv => hbelow hv⟩

theorem isLeast_pathMaxima
    (h : ∀ t, a ≤ t ↔ ∃ q ∈ target, Linked adjacent {x | value x ≤ t} p q) :
    IsLeast (pathMaxima adjacent value target p) a :=
  isGreatest_pathMinima (V := Vᵒᵈ) h

end Passes

namespace Grid

variable {α : Type} [Pixel α]

/-! ## The marker on the boundary -/

theorem get_boundaryMarker (g : Grid α) (kind : Kind) (p : Fin g.shape.len) :
    (g.boundaryMarker kind).get p =
      if g.shape.isBoundary (g.shape.coordsOf p) then g.data.get p else kind.identity := by
  let blank : Grid α := g.map fun _ => kind.identity
  have hvalue : g.getLinear? (g.shape.indexOfUnchecked (g.shape.coordsOf p)) =
      some (g.data.get p) := by
    rw [Shape.indexOfUnchecked_coordsOf, getLinear?_eq_some_get]
  have hblank : blank.data.get p = kind.identity := get_map _ g.data p
  refine (get_updateBoundary blank _ p).trans ?_
  rw [hblank]
  change (if g.shape.isBoundary (g.shape.coordsOf p) then
    (g.getLinear? (g.shape.indexOfUnchecked (g.shape.coordsOf p))).getD kind.identity
    else kind.identity) = _
  rw [hvalue, Option.getD_some]

theorem allOrdered_boundaryMarker {g : Grid α} {kind : Kind} (h : AllOrdered g.data)
    (hidentity : Pixel.Ordered (kind.identity : α)) : AllOrdered (g.boundaryMarker kind) := by
  intro p
  rw [get_boundaryMarker]
  split
  · exact h p
  · exact hidentity

theorem reached_boundaryMarker_iff {g : Grid α} (kind : Kind) (connectivity : Connectivity)
    {t : Int} {p : Fin g.shape.len} :
    Reached (g.shape.Adjacent connectivity) (levels kind g.data)
        (levels kind (g.boundaryMarker kind)) t p ↔
      (∃ q ∈ g.shape.boundary,
        Linked (g.shape.Adjacent connectivity) {x | t ≤ levels kind g.data x} p q) ∨
      t ≤ levels kind g.data p ∧ t ≤ kind.level (kind.identity : α) := by
  rw [reached_iff_exists_linked]
  constructor
  · intro hreached
    obtain ⟨q, hmarker, hlinked⟩ := hreached
    rw [levels, get_boundaryMarker] at hmarker
    split at hmarker
    · next hq => exact .inl ⟨q, hq, Shape.linked_symm hlinked⟩
    · exact .inr ⟨hlinked.mem_right, hmarker⟩
  · intro hkept
    by_cases hjoined : ∃ q ∈ g.shape.boundary,
        Linked (g.shape.Adjacent connectivity) {x | t ≤ levels kind g.data x} p q
    · obtain ⟨q, hq, hlinked⟩ := hjoined
      have hedge : g.shape.isBoundary (g.shape.coordsOf q) = true := hq
      refine ⟨q, ?_, Shape.linked_symm hlinked⟩
      rw [levels, get_boundaryMarker, if_pos hedge]
      exact hlinked.mem_right
    · obtain ⟨hp, hidentity⟩ := hkept.resolve_left hjoined
      have hinside : ¬ g.shape.isBoundary (g.shape.coordsOf p) = true := fun hedge =>
        hjoined ⟨p, hedge, .self hp⟩
      refine ⟨p, ?_, .self hp⟩
      rwa [levels, get_boundaryMarker, if_neg hinside]

/-- What is restored of a grid from its boundary. -/
def restoredFromBoundary (g : Grid α) (kind : Kind) (connectivity : Connectivity) :
    Vector α g.shape.len :=
  (propagate kind (g.shape.schedule connectivity) g.data (g.boundaryMarker kind)).1

/-- At every level the components that meet the boundary are kept, and up to the identity all
others. -/
theorem restoredFromBoundary_padded (g : Grid α) (kind : Kind) (connectivity : Connectivity)
    (h : AllOrdered g.data) (hidentity : Pixel.Ordered (kind.identity : α)) :
    AllOrdered (g.restoredFromBoundary kind connectivity) ∧
      ∀ t p, t ≤ levels kind (g.restoredFromBoundary kind connectivity) p ↔
        (∃ q ∈ g.shape.boundary,
          Linked (g.shape.Adjacent connectivity) {x | t ≤ levels kind g.data x} p q) ∨
        t ≤ levels kind g.data p ∧ t ≤ kind.level (kind.identity : α) := by
  obtain ⟨hordered, hlevel⟩ :=
    propagate_schedule_spec kind connectivity h (allOrdered_boundaryMarker h hidentity)
  refine ⟨hordered, ?_⟩
  intro t p
  rw [restoredFromBoundary, hlevel, reached_boundaryMarker_iff kind connectivity]

/-- Of bounded values, the components that meet the boundary are kept, and no others: a level that
the identity attains lies below all elements, and is joined to the boundary from everywhere. -/
theorem restoredFromBoundary_spec (g : Grid α) (kind : Kind) (connectivity : Connectivity)
    (h : AllBounded g.data) :
    AllOrdered (g.restoredFromBoundary kind connectivity) ∧
      ∀ t p, t ≤ levels kind (g.restoredFromBoundary kind connectivity) p ↔
        ∃ q ∈ g.shape.boundary,
          Linked (g.shape.Adjacent connectivity) {x | t ≤ levels kind g.data x} p q := by
  have hidentity := (h ⟨0, g.shape.len_pos⟩).ordered_identity kind
  obtain ⟨hordered, hlevel⟩ :=
    restoredFromBoundary_padded g kind connectivity h.allOrdered hidentity
  refine ⟨hordered, fun t p => ?_⟩
  rw [hlevel, or_iff_left_of_imp]
  rintro ⟨_, ht⟩
  have hall (x) : t ≤ levels kind g.data x := ht.trans ((h x).level_identity_le kind)
  refine ⟨_, g.shape.first_mem_boundary, ?_⟩
  exact (Shape.linked_univ connectivity p _).mono fun x _ => hall x

theorem fillHoles_eq (g : Grid α) (connectivity : Connectivity) :
    g.fillHoles connectivity = .ok (g.withData (g.restoredFromBoundary .erosion connectivity)) :=
  restoredFrom_unchecked rfl

theorem grindPeaks_eq (g : Grid α) (connectivity : Connectivity) :
    g.grindPeaks connectivity = .ok (g.withData (g.restoredFromBoundary .dilation connectivity)) :=
  restoredFrom_unchecked rfl

/-! ## Raised elements -/

def raisedFlags (g : Grid α) (connectivity : Connectivity) : Vector Bool g.shape.len :=
  (g.restoredFromBoundary .erosion connectivity).zipWith
    (fun filled value => Pixel.lt value filled) g.data

theorem holeMap_eq (g : Grid α) (connectivity : Connectivity) :
    g.holeMap connectivity = .ok ⟨g.shape, g.len_lt, g.raisedFlags connectivity⟩ := by
  rw [holeMap, fillHoles_eq]
  exact congrArg (Except.mapError OperatorError.grid)
    (zipWith_withData g _ (g.restoredFromBoundary .erosion connectivity) g.data)

theorem get_raisedFlags_iff (g : Grid α) (connectivity : Connectivity) (h : AllBounded g.data)
    (p : Fin g.shape.len) :
    (g.raisedFlags connectivity).get p = true ↔
      ∀ q ∈ g.shape.boundary, ¬ Linked (g.shape.Adjacent connectivity)
        {x | levels .erosion g.data p ≤ levels .erosion g.data x} p q := by
  obtain ⟨hordered, hlevel⟩ := restoredFromBoundary_spec g .erosion connectivity h
  have hraised : (g.raisedFlags connectivity).get p = true ↔
      levels .erosion (g.restoredFromBoundary .erosion connectivity) p <
        levels .erosion g.data p := by
    rw [raisedFlags, get_zipWith]
    exact @Kind.precedes_iff _ _ .erosion _ _ (hordered p) (h p).ordered
  rw [hraised, ← not_le, hlevel]
  simp only [not_exists, not_and]

/-- Filling raises every element to the lowest of the greatest values on the paths to the boundary,
and grinding lowers it to the highest of the least ones. Mapped are the elements whose components
among the elements at most as high do not meet the boundary. -/
theorem fillHoles_isLeast_pathMaxima {range : IntRange} (g : Grid (Sample range))
    (connectivity : Connectivity) :
    (∃ filled, g.fillHoles connectivity = .ok (g.withData filled) ∧
      ∀ p, IsLeast (pathMaxima (g.shape.Adjacent connectivity) (fun x => (g.data.get x).val)
        g.shape.boundary p) (filled.get p).val) ∧
    (∃ ground, g.grindPeaks connectivity = .ok (g.withData ground) ∧
      ∀ p, IsGreatest (pathMinima (g.shape.Adjacent connectivity) (fun x => (g.data.get x).val)
        g.shape.boundary p) (ground.get p).val) ∧
    (∃ holes : Vector Bool g.shape.len,
      g.holeMap connectivity = .ok ⟨g.shape, g.len_lt, holes⟩ ∧
        ∀ p, holes.get p = true ↔ ∀ q ∈ g.shape.boundary,
          ¬ Linked (g.shape.Adjacent connectivity)
            {x | (g.data.get x).val ≤ (g.data.get p).val} p q) := by
  obtain ⟨_, hfilled⟩ :=
    restoredFromBoundary_spec g .erosion connectivity (allBounded_sample g.data)
  obtain ⟨_, hground⟩ :=
    restoredFromBoundary_spec g .dilation connectivity (allBounded_sample g.data)
  refine ⟨⟨_, fillHoles_eq g connectivity, ?_⟩, ⟨_, grindPeaks_eq g connectivity, ?_⟩,
    ⟨_, holeMap_eq g connectivity, ?_⟩⟩
  · intro p
    apply isLeast_pathMaxima
    intro t
    have hlevel := hfilled (-t) p
    simp only [levels_erosion_sample, neg_le_neg_iff] at hlevel
    exact hlevel
  · intro p
    apply isGreatest_pathMinima
    intro t
    exact hground t p
  · intro p
    have hraised := get_raisedFlags_iff g connectivity (allBounded_sample g.data) p
    simp only [levels_erosion_sample, neg_le_neg_iff] at hraised
    exact hraised

/-- A pit of two depths with a gap in its rim. -/
def pit : Grid (Sample .u8) where
  shape := ⟨[4, 4], by decide, by decide, by decide⟩
  len_lt := by decide
  data := #v[9, 9, 9, 9, 9, 1, 2, 6, 9, 0, 7, 9, 9, 9, 9, 9].map (Sample.nearest .u8)

example :
    ((pit.restoredFromBoundary .erosion .face).map Sample.val).toList =
      [9, 9, 9, 9, 9, 6, 6, 6, 9, 6, 7, 9, 9, 9, 9, 9] := by
  decide +kernel

end Grid

end Morphology
