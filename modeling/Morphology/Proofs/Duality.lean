import Morphology.Proofs.Extrema.Height
import Morphology.Proofs.Extrema.Regional
import Morphology.Proofs.Holes.Spill
import Morphology.Proofs.Opening.Survivors
import Morphology.Proofs.Reconstruction.Relabeling

/-! Every operator is the dual of another one: the complement of a value exchanges the least and the
greatest, raising and lowering, and the two kinds. Box filters, openings and regional extrema follow
every map that carries levels, the other operators the complement. -/

namespace Morphology

variable {r r' : IntRange} {kind other : Kind} {φ : Sample r → Sample r'} {n : Nat}

theorem CarriesLevels.opposite (h : CarriesLevels kind other φ) :
    CarriesLevels kind.opposite other.opposite φ := by
  intro a b hle
  rw [Kind.level_opposite, Kind.level_opposite, neg_le_neg_iff] at hle ⊢
  exact h b a hle

theorem CarriesLevelsStrictly.level_eq_iff (h : CarriesLevelsStrictly kind other φ)
    {a b : Sample r} : other.level (φ a) = other.level (φ b) ↔ kind.level a = kind.level b := by
  have hbelow := h a b
  have habove := h b a
  omega

theorem CarriesLevelsStrictly.carriesLevels (h : CarriesLevelsStrictly kind other φ) :
    CarriesLevels kind other φ := by
  intro a b hle
  rw [← not_lt, ← h b a, not_lt]
  exact hle

theorem Filtered.map {window : Fin n → Fin n → Prop} {data result : Vector (Sample r) n}
    (h : Filtered kind window data result) (hφ : CarriesLevels kind other φ) :
    Filtered other window (data.map φ) (result.map φ) := by
  refine ⟨allOrdered_sample _, ?_⟩
  intro t p
  simp only [levels, get_map]
  constructor
  · intro ht
    obtain ⟨q, hq, hlevel⟩ := h.exists_level_eq p
    exact ⟨q, hq, ht.trans (hφ _ _ hlevel.le)⟩
  · rintro ⟨q, hq, ht⟩
    exact ht.trans (hφ _ _ ((h.le_iff _ p).mpr ⟨q, hq, le_rfl⟩))

namespace Grid

variable {g : Grid (Sample r)} {radius : Nat} {connectivity : Connectivity}

theorem filterBox_map (hφ : CarriesLevels kind other φ) (hradius : radius ≤ maxRadius) :
    ∃ result, g.filterBox radius kind = .ok (g.withData result) ∧
      (g.map φ).filterBox radius other = .ok ((g.withData result).map φ) := by
  obtain ⟨result, hrun, hresult⟩ := filterBox_filtered g kind hradius (allBounded_sample _)
  obtain ⟨image, hrunImage, himage⟩ :=
    filterBox_filtered (g.map φ) other hradius (allBounded_sample _)
  refine ⟨result, hrun, ?_⟩
  rw [hrunImage, himage.unique (hresult.map hφ)]
  rfl

/-- A grid that is restored from a marker may be mapped before or after, if the marker of the image
is the image of the marker. -/
theorem restoredFrom_map (hφ : CarriesLevels kind other φ) {source : OwnMarker (Sample r)}
    {source' : OwnMarker (Sample r')} {marker : Vector (Sample r) g.shape.len}
    (hmarker : g.ownMarker kind connectivity source = .ok (g.withData marker))
    (himage : (g.map φ).ownMarker other connectivity source' = .ok ((g.withData marker).map φ)) :
    ∃ result, g.restoredFrom kind connectivity false source = .ok result ∧
      (g.map φ).restoredFrom other connectivity false source' = .ok (result.map φ) := by
  have hrun : ((g.withData marker).map φ).reconstruct (g.map φ) ⟨other, connectivity, false⟩ =
      .ok ((g.withData
        (propagate kind (g.shape.schedule connectivity) g.data marker).1).map φ) := by
    rw [reconstruct, reconstructInPlace_map g marker connectivity hφ]
  refine ⟨_, restoredFrom_unchecked hmarker, ?_⟩
  rw [restoredFrom, himage]
  exact hrun

theorem simplify_map (hφ : CarriesLevels kind other φ) (hradius : radius ≤ maxRadius) :
    ∃ result, g.simplify kind radius connectivity = .ok result ∧
      (g.map φ).simplify other radius connectivity = .ok (result.map φ) := by
  obtain ⟨marker, hfilter, himage⟩ := filterBox_map (g := g) hφ.opposite hradius
  exact restoredFrom_map hφ hfilter himage

theorem plateauEscapes_map_iff (hφ : CarriesLevelsStrictly kind other φ)
    {adjacent : Fin n → Fin n → Prop} {v : Vector (Sample r) n} {p : Fin n} :
    PlateauEscapes adjacent (levels other (v.map φ)) (levels other (v.map φ) p) p ↔
      PlateauEscapes adjacent (levels kind v) (levels kind v p) p := by
  have hlt (a b : Sample r) : other.level (φ a) < other.level (φ b) ↔ kind.level a < kind.level b :=
    (hφ a b).symm
  simp only [PlateauEscapes, Escapes, levels, get_map, hφ.level_eq_iff, hlt]

/-- Regional extrema depend on nothing but the order of values. -/
theorem regionalExtrema_map (hφ : CarriesLevelsStrictly kind other φ) :
    ∃ extrema, g.regionalExtrema kind connectivity = .ok extrema ∧
      (g.map φ).regionalExtrema other connectivity = .ok extrema := by
  obtain ⟨flags, hrun, hflags⟩ :=
    regionalExtrema_plateauEscapes kind connectivity (allBounded_sample g.data)
  have hspec : ∃ image : Vector Bool g.shape.len,
      (g.map φ).regionalExtrema other connectivity = .ok ⟨g.shape, g.len_lt, image⟩ ∧
        ∀ p, image.get p = true ↔ ¬ PlateauEscapes (g.shape.Adjacent connectivity)
          (levels other (g.data.map φ)) (levels other (g.data.map φ) p) p :=
    regionalExtrema_plateauEscapes other connectivity (allBounded_sample (g.map φ).data)
  obtain ⟨image, hrunImage, himage⟩ := hspec
  have hsame : image = flags := by
    apply ext_get
    intro p
    rw [Bool.eq_iff_iff, himage, hflags, plateauEscapes_map_iff hφ]
  exact ⟨_, hrun, hsame ▸ hrunImage⟩

end Grid

/-! ## The complement -/

theorem Sample.complement_complement (a : Sample r) : a.complement.complement = a := by
  apply Sample.ext
  exact Int.sub_sub_self _ _

theorem Sample.complement_unsigned_val {bits : Nat} {wide : 1 ≤ bits}
    (a : Sample (.unsigned bits wide)) :
    a.complement.val = (Pixel.maxValue : Sample (.unsigned bits wide)).val - a.val := by
  rw [Sample.maxValue_val]
  simp only [Sample.complement, IntRange.unsigned]
  omega

theorem Sample.complement_signed_val {bits : Nat} {wide : 2 ≤ bits}
    (a : Sample (.signed bits wide)) : a.complement.val = -1 - a.val := by
  simp only [Sample.complement, IntRange.signed]
  omega

/-- The complement exchanges the two ways in which values move, up to where they stop. -/
theorem Sample.add_complement (a b : Sample r) :
    Pixel.add a.complement b = (Pixel.sub a b).complement := by
  have := r.lo_le
  have := r.le_hi
  apply Sample.ext
  rw [Sample.add_val]
  simp only [Sample.complement, Sample.sub_val]
  omega

theorem Sample.sub_complement (a b : Sample r) :
    Pixel.sub a.complement b = (Pixel.add a b).complement := by
  have := r.lo_le
  have := r.le_hi
  apply Sample.ext
  rw [Sample.sub_val]
  simp only [Sample.complement, Sample.add_val]
  omega

theorem carriesLevelsStrictly_complement (r : IntRange) (kind : Kind) :
    CarriesLevelsStrictly kind kind.opposite (Sample.complement : Sample r → Sample r) :=
  carriesLevelsStrictly_of_strictAnti kind Sample.strictAnti_complement

theorem Kind.complement_identity (kind : Kind) :
    (kind.identity : Sample r).complement = kind.opposite.identity := by
  apply Sample.ext
  cases kind with
  | dilation =>
      change r.lo + r.hi - (Pixel.minValue : Sample r).val = (Pixel.maxValue : Sample r).val
      rw [Sample.minValue_val, Sample.maxValue_val]
      omega
  | erosion =>
      change r.lo + r.hi - (Pixel.maxValue : Sample r).val = (Pixel.minValue : Sample r).val
      rw [Sample.minValue_val, Sample.maxValue_val]
      omega

namespace Grid

variable (g : Grid (Sample r)) (kind : Kind) (connectivity : Connectivity)

def complement : Grid (Sample r) := g.map Sample.complement

@[simp] theorem complement_complement : g.complement.complement = g := by
  have hdata : (g.data.map Sample.complement).map Sample.complement = g.data := by
    apply ext_get
    intro p
    rw [get_map, get_map, Sample.complement_complement]
  exact congrArg g.withData hdata

theorem get_complement (p : Fin g.shape.len) :
    @Vector.get _ g.shape.len g.complement.data p = (g.data.get p).complement :=
  get_map _ g.data p

theorem ownMarker_boundary_complement :
    g.complement.ownMarker kind.opposite connectivity .boundary =
      .ok (g.withData (g.boundaryMarker kind)).complement := by
  have hmarker (p : Fin g.shape.len) :
      @Vector.get _ g.shape.len (g.complement.boundaryMarker kind.opposite) p =
        ((g.boundaryMarker kind).map Sample.complement).get p := by
    rw [get_map, get_boundaryMarker, apply_ite Sample.complement, Kind.complement_identity,
      ← get_complement]
    exact get_boundaryMarker g.complement kind.opposite p
  exact congrArg (fun data => Except.ok (g.complement.withData data)) (ext_get hmarker)

theorem ownMarker_shifted_complement {height : Sample r} (h : 0 ≤ height.val) :
    g.complement.ownMarker kind.opposite connectivity (.shifted height) =
      .ok (g.withData (g.shiftedMarker height kind)).complement := by
  have hmarker (p : Fin g.shape.len) :
      @Vector.get _ g.shape.len (g.complement.shiftedMarker height kind.opposite) p =
        ((g.shiftedMarker height kind).map Sample.complement).get p := by
    rw [get_map]
    cases kind with
    | dilation =>
        rw [get_shiftedMarker_dilation, ← Sample.add_complement, ← get_complement]
        exact get_shiftedMarker_erosion g.complement height p
    | erosion =>
        rw [get_shiftedMarker_erosion, ← Sample.sub_complement, ← get_complement]
        exact get_shiftedMarker_dilation g.complement height p
  rw [ownMarker_shifted _ _ _ (checkHeight_eq_ok h)]
  exact congrArg (fun data => Except.ok (g.complement.withData data)) (ext_get hmarker)

/-! ## Duality -/

theorem grindPeaks_complement :
    ∃ filled, g.fillHoles connectivity = .ok filled ∧
      g.complement.grindPeaks connectivity = .ok filled.complement :=
  restoredFrom_map (carriesLevelsStrictly_complement r .erosion).carriesLevels rfl
    (g.ownMarker_boundary_complement .erosion connectivity)

theorem hMaxima_complement {height : Sample r} (h : 0 ≤ height.val) :
    ∃ low, g.hMinima height connectivity = .ok low ∧
      g.complement.hMaxima height connectivity = .ok low.complement :=
  restoredFrom_map (carriesLevelsStrictly_complement r .erosion).carriesLevels
    (ownMarker_shifted g .erosion connectivity (checkHeight_eq_ok h))
    (g.ownMarker_shifted_complement .erosion connectivity h)

theorem regionalMaxima_complement :
    ∃ minima, g.regionalMinima connectivity = .ok minima ∧
      g.complement.regionalMaxima connectivity = .ok minima :=
  regionalExtrema_map (carriesLevelsStrictly_complement r .erosion)

theorem openingByReconstruction_complement {radius : Nat} (hradius : radius ≤ maxRadius) :
    ∃ closed, g.closingByReconstruction radius connectivity = .ok closed ∧
      g.complement.openingByReconstruction radius connectivity = .ok closed.complement :=
  simplify_map (carriesLevelsStrictly_complement r .erosion).carriesLevels hradius

theorem erodeBox_complement {radius : Nat} (hradius : radius ≤ maxRadius) :
    ∃ dilated, g.dilateBox radius = .ok dilated ∧
      g.complement.erodeBox radius = .ok dilated.complement := by
  obtain ⟨dilated, hdilated, heroded⟩ := filterBox_map (g := g)
    (carriesLevelsStrictly_complement r .dilation).carriesLevels hradius
  exact ⟨g.withData dilated, hdilated, heroded⟩

/-- Filling holes, suppressing basins, regional minima, closing and box dilation are grinding peaks,
suppressing peaks, regional maxima, opening and box erosion of the complement, and complemented
back. The height stays as it is, and so do radius and connectivity. -/
theorem operators_complement_dual {radius : Nat} {height : Sample r} (hradius : radius ≤ maxRadius)
    (hheight : 0 ≤ height.val) :
    (∃ ground, g.complement.grindPeaks connectivity = .ok ground ∧
      g.fillHoles connectivity = .ok ground.complement) ∧
    (∃ low, g.complement.hMaxima height connectivity = .ok low ∧
      g.hMinima height connectivity = .ok low.complement) ∧
    (∃ maxima, g.complement.regionalMaxima connectivity = .ok maxima ∧
      g.regionalMinima connectivity = .ok maxima) ∧
    (∃ opened, g.complement.openingByReconstruction radius connectivity = .ok opened ∧
      g.closingByReconstruction radius connectivity = .ok opened.complement) ∧
    (∃ eroded, g.complement.erodeBox radius = .ok eroded ∧
      g.dilateBox radius = .ok eroded.complement) := by
  obtain ⟨_, hfilled, hground⟩ := g.grindPeaks_complement connectivity
  obtain ⟨_, hlow, hhigh⟩ := g.hMaxima_complement connectivity hheight
  obtain ⟨_, hminima, hmaxima⟩ := g.regionalMaxima_complement connectivity
  obtain ⟨_, hclosed, hopened⟩ := g.openingByReconstruction_complement connectivity hradius
  obtain ⟨_, hdilated, heroded⟩ := g.erodeBox_complement hradius
  refine ⟨⟨_, hground, ?_⟩, ⟨_, hhigh, ?_⟩, ⟨_, hmaxima, hminima⟩, ⟨_, hopened, ?_⟩,
    ⟨_, heroded, ?_⟩⟩
  · rw [complement_complement, hfilled]
  · rw [complement_complement, hlow]
  · rw [complement_complement, hclosed]
  · rw [complement_complement, hdilated]

/-- Signed values up to both ends of their range, with a peak inside and a pit at a corner. -/
def ridge : Grid (Sample .i8) where
  shape := ⟨[3, 4], by decide, by decide, by decide⟩
  len_lt := by decide
  data := #v[-128, 0, 127, -1, 5, 100, -100, 127, -128, 127, 0, -7].map (Sample.nearest .i8)

theorem operators_ridge_complement_dual :
    1 ≤ maxRadius ∧ 0 ≤ (Sample.nearest .i8 120).val ∧
      (∃ ground, ridge.complement.grindPeaks .face = .ok ground ∧
        ridge.fillHoles .face = .ok ground.complement) ∧
      (∃ low, ridge.complement.hMaxima (Sample.nearest .i8 120) .face = .ok low ∧
        ridge.hMinima (Sample.nearest .i8 120) .face = .ok low.complement) ∧
      (∃ maxima, ridge.complement.regionalMaxima .face = .ok maxima ∧
        ridge.regionalMinima .face = .ok maxima) ∧
      (∃ opened, ridge.complement.openingByReconstruction 1 .face = .ok opened ∧
        ridge.closingByReconstruction 1 .face = .ok opened.complement) ∧
      (∃ eroded, ridge.complement.erodeBox 1 = .ok eroded ∧
        ridge.dilateBox 1 = .ok eroded.complement) :=
  ⟨by decide, by decide, operators_complement_dual ridge .face (by decide) (by decide)⟩

end Grid

end Morphology
