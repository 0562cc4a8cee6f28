import Morphology.Proofs.Grid.Scripts

/-! An update of the boundary calls its function once for each boundary position, in lexicographic
order and with the old value, and writes the answers there and nothing else. -/

namespace Morphology

namespace Shape

def OnFace (dims coords : List Nat) : Prop :=
  ∃ (axis c d : Nat), coords[axis]? = some c ∧ dims[axis]? = some d ∧ (c = 0 ∨ c = d - 1)

theorem onFace_cons {c d : Nat} {cs ds : List Nat} :
    OnFace (d :: ds) (c :: cs) ↔ (c = 0 ∨ c = d - 1) ∨ OnFace ds cs := by
  constructor
  · rintro ⟨axis, x, e, hx, he, hend⟩
    cases axis with
    | zero =>
        rw [List.getElem?_cons_zero, Option.some.injEq] at hx he
        exact .inl (hx ▸ he ▸ hend)
    | succ axis => exact .inr ⟨axis, x, e, hx, he, hend⟩
  · rintro (hend | ⟨axis, x, e, hx, he, hend⟩)
    · exact ⟨0, c, d, rfl, rfl, hend⟩
    · exact ⟨axis + 1, x, e, hx, he, hend⟩

theorem touches_cons_iff {c d : Nat} {cs ds : List Nat} :
    touches (c :: cs) (d :: ds) = true ↔ (c = 0 ∨ c + 1 = d) ∨ touches cs ds = true := by
  simp [touches]

theorem touches_iff_onFace {coords dims : List Nat} (hinside : inside coords dims = true) :
    touches coords dims = true ↔ OnFace dims coords := by
  induction hinside using inside_induction with
  | nil => simp [touches, OnFace]
  | cons c d cs ds hc hcs ih =>
      have hlast : c + 1 = d ↔ c = d - 1 := by omega
      rw [touches_cons_iff, onFace_cons, ih, hlast]

theorem sum_range_inner (d n : Nat) :
    ((List.range d).map fun c => if c = 0 ∨ c + 1 = d then 0 else n).sum = (d - 2) * n := by
  rcases d with _ | _ | d
  · simp
  · simp
  · have hinner : ((List.range d).map fun c => if c + 1 + 1 = d + 1 + 1 then 0 else n) =
        (List.range d).map fun _ => n := by
      apply List.map_congr_left
      intro c hc
      have hlt := List.mem_range.mp hc
      exact if_neg (by omega)
    rw [List.range_succ, List.range_succ_eq_map]
    simpa [Function.comp_def] using congrArg List.sum hinner

/-- The positions off the boundary make a box with two places fewer on each axis. -/
theorem countP_interior (dims : List Nat) :
    ((positions dims).countP fun coords => !touches coords dims) = volume (dims.map (· - 2)) := by
  induction dims with
  | nil => rfl
  | cons d ds ih =>
      have hrow (c : Nat) :
          (((positions ds).map (c :: ·)).countP fun coords => !touches coords (d :: ds)) =
            if c = 0 ∨ c + 1 = d then 0 else volume (ds.map (· - 2)) := by
        rw [List.countP_map]
        split
        · next hend =>
            apply List.countP_eq_zero.mpr
            intro cs _
            simp [touches_cons_iff.mpr (.inl hend)]
        · next hinner =>
            have hrest (cs : List Nat) : touches (c :: cs) (d :: ds) = touches cs ds := by
              rw [Bool.eq_iff_iff, touches_cons_iff, or_iff_right hinner]
            simp only [Function.comp_def, hrest, ih]
      rw [positions, List.countP_flatMap]
      simp only [Function.comp_def, hrow]
      exact sum_range_inner d _

theorem countP_touches_add (s : Shape) :
    (positions s.dims).countP (touches · s.dims) + volume (s.dims.map (· - 2)) = s.len := by
  rw [← countP_interior, ← length_positions]
  simpa using (List.length_eq_countP_add_countP (touches · s.dims) (l := positions s.dims)).symm

end Shape

namespace Grid

variable {α : Type}

/-! ## Calls -/

/-- The boundary positions in lexicographic order, each with its value; as many as there are
elements, less those of the box inside. -/
structure VisitsBoundary (g : Grid α) (calls : List (List Nat × α)) : Prop where
  increasing : (calls.map Prod.fst).Pairwise (· < ·)
  mem_iff : ∀ coords value,
    (coords, value) ∈ calls ↔ g.get? coords = some value ∧ Shape.OnFace g.dims coords
  length_add : calls.length + Shape.volume (g.dims.map (· - 2)) = g.shape.len

theorem map_fst_boundary (g : Grid α) :
    g.picture.boundary.map Prod.fst =
      (Shape.positions g.dims).filter (Shape.touches · g.dims) := by
  rw [boundary_picture, List.map_map, dims, ← map_coordsOf_boundaryElements]
  rfl

theorem mem_boundary_iff {g : Grid α} {coords : List Nat} {value : α} :
    (coords, value) ∈ g.picture.boundary ↔
      g.get? coords = some value ∧ Shape.OnFace g.dims coords := by
  rw [boundary_picture, List.mem_map]
  constructor
  · rintro ⟨p, hp, hentry⟩
    obtain ⟨rfl, rfl⟩ := Prod.mk.inj hentry
    refine ⟨g.get?_coordsOf p, ?_⟩
    exact (Shape.touches_iff_onFace (Shape.contains_coordsOf p.isLt)).mp
      (mem_boundaryElements_iff.mp hp)
  · rintro ⟨hvalue, hface⟩
    obtain ⟨p, rfl⟩ := exists_coordsOf_eq hvalue
    rw [get?_coordsOf, Option.some.injEq] at hvalue
    refine ⟨p, mem_boundaryElements_iff.mpr ?_, by rw [hvalue]⟩
    exact (Shape.touches_iff_onFace (Shape.contains_coordsOf p.isLt)).mpr hface

theorem visitsBoundary_boundary (g : Grid α) : g.VisitsBoundary g.picture.boundary where
  increasing := by
    rw [map_fst_boundary]
    exact (Shape.pairwise_lt_positions g.dims).filter _
  mem_iff _ _ := mem_boundary_iff
  length_add := by
    rw [← List.length_map (f := Prod.fst), map_fst_boundary, ← List.countP_eq_length_filter]
    exact Shape.countP_touches_add g.shape

/-- The answers stand at the positions of their calls, and off the boundary all is as before. -/
structure Stores (g next : Grid α) (calls : List (List Nat × α)) (answers : List α) : Prop where
  dims_eq : next.dims = g.dims
  stored : ∀ (i : Nat) coords old value, calls[i]? = some (coords, old) →
    answers[i]? = some value → next.get? coords = some value
  kept : ∀ coords, ¬ Shape.OnFace g.dims coords → next.get? coords = g.get? coords

def withBoundary (g : Grid α) (answers : List α) : Grid α :=
  { g with data := overwrite g.data ((boundaryElements g.shape).zip answers) }

theorem picture_withBoundary (g : Grid α) (answers : List α) :
    (g.withBoundary answers).picture =
      g.picture.overwrite ((g.picture.boundary.map Prod.fst).zip answers) := by
  have hnodup := nodup_map_fst_zip (nodup_boundaryElements g.shape) answers
  rw [withBoundary, picture_overwrite g hnodup, boundary_picture, List.map_map,
    ← List.zip_map_left]
  rfl

theorem get?_withBoundary (g : Grid α) (answers : List α) (coords : List Nat) :
    (g.withBoundary answers).get? coords =
      (((g.picture.boundary.map Prod.fst).zip answers).lookup coords).or (g.get? coords) :=
  congrFun (congrArg Picture.value? (g.picture_withBoundary answers)) coords

theorem stores_withBoundary (g : Grid α) (answers : List α) :
    g.Stores (g.withBoundary answers) g.picture.boundary answers where
  dims_eq := rfl
  stored i coords old value hcall hanswer := by
    have hnodup : (g.picture.boundary.map Prod.fst).Nodup :=
      g.visitsBoundary_boundary.increasing.imp fun h => ne_of_lt h
    have hentry : (coords, value) ∈ (g.picture.boundary.map Prod.fst).zip answers := by
      apply List.mem_of_getElem? (i := i)
      rw [List.getElem?_zip_eq_some, List.getElem?_map, hcall]
      exact ⟨rfl, hanswer⟩
    have hfound := (lookup_eq_some_iff_mem (nodup_map_fst_zip hnodup answers)).mpr hentry
    rw [get?_withBoundary, hfound, Option.some_or]
  kept coords hinner := by
    have hnone : ((g.picture.boundary.map Prod.fst).zip answers).lookup coords = none := by
      apply lookup_eq_none_of_notMem
      intro hmem
      obtain ⟨⟨_, value⟩, hentry, rfl⟩ := List.mem_map.mp hmem
      obtain ⟨⟨_, old⟩, hcall, rfl⟩ := List.mem_map.mp (List.of_mem_zip hentry).1
      exact hinner (mem_boundary_iff.mp hcall).2
    rw [get?_withBoundary, hnone, Option.none_or]

/-- Whatever effects the function has, an update of the boundary is the calls on the boundary
positions with their old values, one after the other in lexicographic order, and then the writing of
the answers: no position is met twice, and off the boundary nothing is written. -/
theorem updateBoundaryM_calls_once (g : Grid α) :
    ∃ (calls : List (List Nat × α)) (store : List α → Grid α),
      g.VisitsBoundary calls ∧ (∀ answers, g.Stores (store answers) calls answers) ∧
      ∀ {m : Type → Type} [Monad m] [LawfulMonad m] (f : List Nat → α → m α),
        g.updateBoundaryM f = store <$> calls.mapM (Function.uncurry f) ∧
        (g.updateBoundaryM (Function.curry (recorded (Function.uncurry f)))).run [] =
          (fun answers => (store answers, calls.zip answers)) <$>
            calls.mapM (Function.uncurry f) := by
  have hupdate {m : Type → Type} [Monad m] [LawfulMonad m] (f : List Nat → α → m α) :
      g.updateBoundaryM f = g.withBoundary <$> g.picture.boundary.mapM (Function.uncurry f) := by
    rw [updateBoundaryM_eq, boundary_picture, List.mapM_map]
    rfl
  refine ⟨g.picture.boundary, g.withBoundary, g.visitsBoundary_boundary, g.stores_withBoundary, ?_⟩
  intro m _ _ f
  refine ⟨hupdate f, ?_⟩
  rw [hupdate, Function.uncurry_curry, StateT.run_map, run_mapM_recorded, Functor.map_map]
  rfl

end Grid

end Morphology
