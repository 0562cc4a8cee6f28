import Morphology.Proofs.Grid.Access
import Morphology.Proofs.Grid.Boundary
import Morphology.Proofs.Shape.Positions

/-! Grids as finite maps. A picture has values at coordinates and no linear index; whatever makes a
grid or changes one does the like to its picture. -/

namespace Morphology

theorem lookup_eq_some_iff_mem {κ α : Type} [BEq κ] [LawfulBEq κ] {entries : List (κ × α)}
    (hnodup : (entries.map Prod.fst).Nodup) {key : κ} {value : α} :
    entries.lookup key = some value ↔ (key, value) ∈ entries := by
  induction entries with
  | nil => simp
  | cons entry entries ih =>
      obtain ⟨first, other⟩ := entry
      rw [List.map_cons, List.nodup_cons] at hnodup
      rw [List.lookup_cons, List.mem_cons]
      by_cases hkey : key = first
      · subst hkey
        have hlater : (key, value) ∉ entries := fun h =>
          hnodup.1 (List.mem_map.mpr ⟨_, h, rfl⟩)
        simp [hlater, eq_comm]
      · simp [beq_eq_false_iff_ne.mpr hkey, hkey, ih hnodup.2]

theorem nodup_map_fst_zip {κ α : Type} {keys : List κ} (hkeys : keys.Nodup) (values : List α) :
    ((keys.zip values).map Prod.fst).Nodup := by
  rw [List.zip_eq_zip_take_min, List.map_fst_zip (by simp)]
  exact hkeys.sublist (List.take_sublist _ keys)

theorem lookup_map_of_injective {κ κ' α : Type} [BEq κ] [LawfulBEq κ] [BEq κ'] [LawfulBEq κ']
    {view : κ → κ'} (hview : Function.Injective view) (entries : List (κ × α)) (key : κ) :
    (entries.map (Prod.map view id)).lookup (view key) = entries.lookup key := by
  induction entries with
  | nil => rfl
  | cons entry entries ih =>
      have hkey : (view key == view entry.1) = (key == entry.1) := by
        rw [Bool.eq_iff_iff, beq_iff_eq, beq_iff_eq, hview.eq_iff]
      rw [List.map_cons, List.lookup_cons, List.lookup_cons, ih, Prod.map_fst, hkey]
      rfl

/-! ## Pictures -/

/-- Extents, and a value for each position inside them. -/
structure Picture (α : Type) where
  dims : List Nat
  value? : List Nat → Option α

namespace Picture

variable {α β γ : Type}

def filled (dims : List Nat) (value : α) : Picture α :=
  ⟨dims, fun coords => if Shape.inside coords dims then some value else none⟩

def ofEntries (dims : List Nat) (entries : List (List Nat × α)) : Picture α :=
  ⟨dims, fun coords => entries.lookup coords⟩

/-- The values belong to the positions in lexicographic order. -/
def ofValues (dims : List Nat) (values : List α) : Picture α :=
  ofEntries dims ((Shape.positions dims).zip values)

def width (rows : List (List α)) : Nat := (rows.head?.map List.length).getD 0

def ofRows (rows : List (List α)) : Picture α where
  dims := [rows.length, width rows]
  value?
    | [i, j] => rows[i]?.bind fun row => row[j]?
    | _ => none

def set (p : Picture α) (coords : List Nat) (value : α) : Picture α :=
  if Shape.inside coords p.dims then
    { p with value? := Function.update p.value? coords (some value) }
  else p

/-- An index counts the positions in lexicographic order. -/
def setLinear (p : Picture α) (index : Nat) (value : α) : Picture α :=
  match (Shape.positions p.dims)[index]? with
  | none => p
  | some coords => p.set coords value

def map (f : α → β) (p : Picture α) : Picture β := ⟨p.dims, fun coords => (p.value? coords).map f⟩

def zipWith (f : α → β → γ) (p : Picture α) (q : Picture β) : Picture γ :=
  ⟨p.dims, fun coords => Option.map₂ f (p.value? coords) (q.value? coords)⟩

/-- The positions on the boundary in lexicographic order, each with its value. -/
def boundary (p : Picture α) : List (List Nat × α) :=
  ((Shape.positions p.dims).filter fun coords => Shape.touches coords p.dims).filterMap
    fun coords => (p.value? coords).map (coords, ·)

def overwrite (p : Picture α) (entries : List (List Nat × α)) : Picture α :=
  { p with value? := fun coords => (entries.lookup coords).or (p.value? coords) }

/-- Every new value comes from an old one of the picture. -/
def updateBoundaryM {m : Type → Type} [Monad m] (p : Picture α) (f : List Nat → α → m α) :
    m (Picture α) := do
  let values ← p.boundary.mapM fun (coords, value) => f coords value
  pure (p.overwrite ((p.boundary.map Prod.fst).zip values))

theorem value?_ofValues (s : Shape) (values : List α) (coords : List Nat) :
    (ofValues s.dims values).value? coords =
      (s.indexOf? coords).bind fun index => values[index]? := by
  have hnodup : (((Shape.positions s.dims).zip values).map Prod.fst).Nodup :=
    nodup_map_fst_zip (Shape.nodup_positions s.dims) values
  apply Option.ext
  intro value
  rw [ofValues, ofEntries, lookup_eq_some_iff_mem hnodup, List.mem_iff_getElem?,
    Option.bind_eq_some_iff]
  apply exists_congr
  intro index
  rw [List.getElem?_zip_eq_some, Shape.getElem?_positions_eq_some_iff]

theorem getElem?_flatten {rows : List (List α)} {width : Nat}
    (hwidth : ∀ row ∈ rows, row.length = width) (i : Nat) {j : Nat} (hj : j < width) :
    rows.flatten[i * width + j]? = rows[i]?.bind fun row => row[j]? := by
  induction rows generalizing i with
  | nil => simp
  | cons row rows ih =>
      rw [List.forall_mem_cons] at hwidth
      rw [List.flatten_cons]
      cases i with
      | zero =>
          rw [List.getElem?_append_left (by omega), Nat.zero_mul, Nat.zero_add]
          rfl
      | succ i =>
          have hindex : (i + 1) * width + j - row.length = i * width + j := by
            rw [Nat.succ_mul, hwidth.1]
            omega
          rw [List.getElem?_append_right (by rw [Nat.succ_mul]; omega), hindex, ih hwidth.2,
            List.getElem?_cons_succ]

theorem ofValues_flatten {s : Shape} {rows : List (List α)}
    (hdims : s.dims = [rows.length, width rows]) (hrows : ∀ row ∈ rows, row.length = width rows) :
    ofValues s.dims rows.flatten = ofRows rows := by
  suffices hvalue : (ofValues s.dims rows.flatten).value? = (ofRows rows).value? by
    calc ofValues s.dims rows.flatten
        = ⟨s.dims, (ofRows rows).value?⟩ := congrArg (Picture.mk s.dims) hvalue
      _ = ofRows rows := congrArg (Picture.mk · (ofRows rows).value?) hdims
  funext coords
  have hindex : s.indexOf? coords = if Shape.inside coords [rows.length, width rows] then
      some (Shape.dot coords [width rows, 1]) else none := by
    rw [Shape.indexOf?, Shape.contains, Shape.indexOfUnchecked, Shape.strides, hdims]
    simp [Shape.suffixVolumes, Shape.volume]
  rw [value?_ofValues, hindex]
  rcases coords with _ | ⟨i, _ | ⟨j, _ | ⟨k, rest⟩⟩⟩
  · rfl
  · simp [Shape.inside, ofRows]
  · by_cases hj : j < width rows
    · have hflat := getElem?_flatten hrows i hj
      by_cases hi : i < rows.length
      · simp [Shape.inside, Shape.dot, ofRows, hi, hj, hflat]
      · simp [Shape.inside, ofRows, hi]
    · have hbeyond : (rows[i]?.bind fun row => row[j]?) = none := by
        rw [Option.bind_eq_none_iff]
        intro row hmem
        rw [List.getElem?_eq_none_iff, hrows row (List.mem_of_getElem? hmem)]
        exact Nat.not_lt.mp hj
      simp [Shape.inside, ofRows, hj, hbeyond]
  · simp [Shape.inside, ofRows]

end Picture

namespace Grid

variable {α β γ : Type}

def picture (g : Grid α) : Picture α := ⟨g.dims, g.get?⟩

theorem picture_eq_ofValues (g : Grid α) : g.picture = .ofValues g.dims g.data.toList := by
  have hget : g.get? = (Picture.ofValues g.dims g.data.toList).value? := by
    funext coords
    rw [dims, Picture.value?_ofValues]
    simp [get?]
  rw [picture, hget]
  rfl

/-! ## Making -/

/-- Extents that a grid can have. -/
def Sized (dims : List Nat) : Prop :=
  dims ≠ [] ∧ (∀ d ∈ dims, 0 < d) ∧ Shape.volume dims < limit

instance (dims : List Nat) : Decidable (Sized dims) := inferInstanceAs (Decidable (_ ∧ _ ∧ _))

theorem exists_dims_eq_of_sized {dims : List Nat} (h : Sized dims) :
    ∃ s : { s : Shape // s.len < limit }, s.1.dims = dims :=
  ⟨⟨⟨dims, h.1, h.2.1, h.2.2.trans (by decide)⟩, h.2.2⟩, rfl⟩

theorem shapeOf_cases (dims : List Nat) :
    (Sized dims ∧ ∃ s, shapeOf dims = .ok s ∧ s.1.dims = dims) ∨
      (¬ Sized dims ∧ ∃ e, shapeOf dims = .error e) := by
  cases hshape : shapeOf dims with
  | ok s =>
      have hdims := shapeOf_eq_ok_iff.mp hshape
      refine .inl ⟨?_, s, rfl, hdims⟩
      rw [← hdims]
      exact ⟨s.1.dims_ne_nil, s.1.dims_pos, s.2⟩
  | error e =>
      refine .inr ⟨?_, e, rfl⟩
      intro hsized
      obtain ⟨s, hs⟩ := exists_dims_eq_of_sized hsized
      rw [shapeOf_eq_ok_iff.mpr hs] at hshape
      cases hshape

def view (made : Except GridError (Grid α)) : Option (Picture α) := made.toOption.map picture

theorem view_filled (dims : List Nat) (value : α) :
    view (filled dims value) = if Sized dims then some (.filled dims value) else none := by
  rcases shapeOf_cases dims with ⟨hsized, s, hs, rfl⟩ | ⟨hsized, e, he⟩
  · rw [if_pos hsized, filled, hs]
    have hget : get? ⟨s.1, s.2, Vector.replicate s.1.len value⟩ =
        (Picture.filled s.1.dims value).value? := by
      apply get?_eq
      · intro p
        refine (if_pos (Shape.contains_coordsOf p.isLt)).trans ?_
        simp [Vector.get]
      · intro coords houtside
        exact if_neg (Bool.not_eq_true _ ▸ houtside)
    exact congrArg (fun value? => some (Picture.mk s.1.dims value?)) hget
  · rw [if_neg hsized, filled, he]
    rfl

theorem view_ofList (dims : List Nat) (values : List α) :
    view (ofList dims values) =
      if Sized dims ∧ values.length = Shape.volume dims then some (.ofValues dims values)
      else none := by
  cases hmade : ofList dims values with
  | ok g =>
      obtain ⟨rfl, rfl⟩ := ofList_eq_ok_iff.mp hmade
      have hsized : Sized g.dims := ⟨g.shape.dims_ne_nil, g.shape.dims_pos, g.len_lt⟩
      rw [if_pos ⟨hsized, g.data.length_toList⟩, ← picture_eq_ofValues]
      rfl
  | error e =>
      have hrefused : ¬ (Sized dims ∧ values.length = Shape.volume dims) := by
        rintro ⟨hsized, hlength⟩
        obtain ⟨s, rfl⟩ := exists_dims_eq_of_sized hsized
        have hgrid : ofList s.1.dims values = .ok ⟨s.1, s.2, ⟨values.toArray, hlength⟩⟩ :=
          ofList_eq_ok_iff.mpr ⟨rfl, rfl⟩
        rw [hgrid] at hmade
        cases hmade
      rw [if_neg hrefused]
      rfl

theorem view_ofRows (rows : List (List α)) :
    view (ofRows rows) =
      if Sized [rows.length, Picture.width rows] ∧
          ∀ row ∈ rows, row.length = Picture.width rows then
        some (.ofRows rows)
      else none := by
  cases hfind : rows.find? fun row => row.length ≠ Picture.width rows with
  | some row =>
      have hrun : ofRows rows = .error (.unevenRows row.length (Picture.width rows)) := by
        unfold ofRows
        rw [← Picture.width]
        simp only [hfind]
      have huneven : ¬ ∀ row ∈ rows, row.length = Picture.width rows := fun h =>
        absurd (h row (List.mem_of_find?_eq_some hfind)) (by simpa using List.find?_some hfind)
      rw [if_neg fun h => huneven h.2, hrun]
      rfl
  | none =>
      have hrun : ofRows rows = ofList [rows.length, Picture.width rows] rows.flatten := by
        unfold ofRows
        rw [← Picture.width]
        simp only [hfind]
      have heven : ∀ row ∈ rows, row.length = Picture.width rows := by
        simpa [List.find?_eq_none] using hfind
      have hlength : rows.flatten.length = Shape.volume [rows.length, Picture.width rows] := by
        rw [List.length_flatten, List.map_eq_replicate_iff.mpr heven, List.sum_replicate_nat]
        simp [Shape.volume]
      rw [hrun, view_ofList]
      by_cases hsized : Sized [rows.length, Picture.width rows]
      · obtain ⟨s, hs⟩ := exists_dims_eq_of_sized hsized
        rw [if_pos ⟨hsized, hlength⟩, if_pos ⟨hsized, heven⟩, ← Picture.ofValues_flatten hs heven,
          hs]
      · rw [if_neg fun h => hsized h.1, if_neg fun h => hsized h.1]

section Effects

variable {m : Type → Type} [Monad m] [LawfulMonad m]

theorem toList_mapM {ι : Type} {n : Nat} (f : ι → m α) (v : Vector ι n) :
    Vector.toList <$> v.mapM f = v.toList.mapM f := by
  have harray : Array.toList <$> (Vector.toArray <$> v.mapM f) = v.toList.mapM f := by
    rw [Vector.toArray_mapM, Array.toList_mapM]
    rfl
  rwa [Functor.map_map] at harray

/-- The values are asked for in lexicographic order of positions. -/
theorem view_ofFnM (dims : List Nat) (f : List Nat → m α) :
    view <$> ofFnM dims f =
      if Sized dims then do
        let values ← (Shape.positions dims).mapM f
        pure (some (.ofValues dims values))
      else pure none := by
  rcases shapeOf_cases dims with ⟨hsized, s, hs, rfl⟩ | ⟨hsized, e, he⟩
  · rw [if_pos hsized, ofFnM, hs, ← Shape.raster_toList_eq_positions, ← toList_mapM, bind_map_left]
    simp only [map_bind, map_pure]
    apply bind_congr
    intro data
    exact congrArg (fun p => pure (some p)) (picture_eq_ofValues ⟨s.1, s.2, data⟩)
  · rw [if_neg hsized, ofFnM, he, map_pure]
    rfl

theorem map_coordsOf_boundaryElements (s : Shape) :
    ((boundaryElements s).map fun p : Fin s.len => s.coordsOf p) =
      (Shape.positions s.dims).filter (Shape.touches · s.dims) := by
  rw [← Shape.map_coordsOf_range_eq_positions, Shape.map_coordsOf_range, List.filter_map]
  rfl

theorem boundary_picture (g : Grid α) :
    g.picture.boundary = (boundaryElements g.shape).map fun p : Fin g.shape.len =>
      (g.shape.coordsOf p, g.data.get p) := by
  have hvalues : ((fun coords => (g.get? coords).map (coords, ·)) ∘
      fun p : Fin g.shape.len => g.shape.coordsOf p) =
        some ∘ fun p : Fin g.shape.len => (g.shape.coordsOf p, g.data.get p) := by
    funext p
    simp [get?_coordsOf]
  rw [Picture.boundary, picture, dims, ← map_coordsOf_boundaryElements, List.filterMap_map,
    hvalues, List.filterMap_eq_map]

theorem picture_overwrite (g : Grid α) {entries : List (Fin g.shape.len × α)}
    (hnodup : (entries.map Prod.fst).Nodup) :
    picture { g with data := overwrite g.data entries } =
      g.picture.overwrite
        (entries.map (Prod.map (fun p : Fin g.shape.len => g.shape.coordsOf p) id)) := by
  have hinjective : Function.Injective fun p : Fin g.shape.len => g.shape.coordsOf p :=
    fun _ _ h => Shape.eq_of_coordsOf_eq h
  have hget : get? ⟨g.shape, g.len_lt, overwrite g.data entries⟩ =
      (g.picture.overwrite (entries.map
        (Prod.map (fun p : Fin g.shape.len => g.shape.coordsOf p) id))).value? := by
    apply get?_eq
    · intro p
      have hlookup := lookup_map_of_injective hinjective entries p
      rw [get_overwrite hnodup]
      simp only [Picture.overwrite, picture, hlookup, get?_coordsOf]
      cases entries.lookup p <;> rfl
    · intro coords houtside
      have hlookup : (entries.map
          (Prod.map (fun p : Fin g.shape.len => g.shape.coordsOf p) id)).lookup coords = none := by
        apply lookup_eq_none_of_notMem
        rw [List.map_map]
        intro h
        obtain ⟨entry, _, hcoords⟩ := List.mem_map.mp h
        exact ne_coordsOf_of_outside houtside entry.1 hcoords.symm
      simp only [Picture.overwrite, picture, hlookup, get?_of_outside houtside]
      rfl
  exact congrArg (Picture.mk g.dims) hget

theorem picture_updateBoundaryM (g : Grid α) (f : List Nat → α → m α) :
    picture <$> g.updateBoundaryM f = g.picture.updateBoundaryM f := by
  rw [updateBoundaryM_eq, Functor.map_map, Picture.updateBoundaryM, boundary_picture, List.mapM_map,
    List.map_map, ← bind_pure_comp]
  apply bind_congr
  intro values
  have hnodup := nodup_map_fst_zip (nodup_boundaryElements g.shape) values
  rw [picture_overwrite g hnodup, ← List.zip_map_left]
  rfl

end Effects

/-! ## Changing -/

theorem picture_withValue (g : Grid α) (p : Fin g.shape.len) (value : α) :
    (g.withValue p value).picture = g.picture.set (g.shape.coordsOf p) value := by
  rw [Picture.set, picture, get?_withValue]
  exact (if_pos (Shape.contains_coordsOf p.isLt)).symm

theorem picture_set (g : Grid α) (coords : List Nat) (value : α) :
    ((g.set coords value).toOption.getD g).picture = g.picture.set coords value := by
  cases hcontains : g.shape.contains coords with
  | true =>
      obtain ⟨p, rfl⟩ := Shape.exists_coordsOf_of_contains hcontains
      rw [set_coordsOf]
      exact picture_withValue g p value
  | false =>
      rw [set_of_outside hcontains, Picture.set]
      exact (if_neg (Bool.eq_false_iff.mp hcontains)).symm

theorem picture_setLinear (g : Grid α) (index : Nat) (value : α) :
    ((g.setLinear? index value).getD g).picture = g.picture.setLinear index value := by
  by_cases hindex : index < g.shape.len
  · have hposition : (Shape.positions g.picture.dims)[index]? = some (g.shape.coordsOf index) :=
      Shape.getElem?_positions_eq_some_iff.mpr (Shape.indexOf?_coordsOf hindex)
    rw [setLinear?_of_lt g ⟨index, hindex⟩, Picture.setLinear, hposition]
    exact picture_withValue g ⟨index, hindex⟩ value
  · have hposition : (Shape.positions g.picture.dims)[index]? = none := by
      rw [List.getElem?_eq_none_iff, picture, dims, Shape.length_positions]
      exact Nat.not_lt.mp hindex
    rw [setLinear?_of_le (Nat.not_lt.mp hindex), Picture.setLinear, hposition]
    rfl

theorem picture_map (f : α → β) (g : Grid α) : (g.map f).picture = g.picture.map f := by
  rw [picture, get?_map]
  rfl

theorem view_zipWith (f : α → β → γ) (g : Grid α) (h : Grid β) :
    view (g.zipWith f h) =
      if g.dims = h.dims then some (.zipWith f g.picture h.picture) else none := by
  by_cases hdims : g.dims = h.dims
  · obtain ⟨s, small, data⟩ := g
    obtain ⟨t, small', other⟩ := h
    obtain rfl := Shape.ext_dims hdims
    rw [if_pos hdims, zipWith, dif_pos rfl]
    exact congrArg (fun value? => some (Picture.mk s.dims value?)) (get?_zipWith f small data other)
  · rw [if_neg hdims, zipWith, dif_neg fun same => hdims (congrArg Shape.dims same)]
    rfl

end Grid

end Morphology
