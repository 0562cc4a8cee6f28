import Morphology.Proofs.Grid.Pictures

/-! Programs that make grids and change them, with callbacks of any effect. Each has a meaning in
pictures, and runs on grids show exactly that. -/

namespace Morphology

section Recorded

variable {ι α : Type} {m : Type → Type} [Monad m]

/-- A callback that notes its calls with their results, first call first. -/
def recorded (f : ι → m α) (i : ι) : StateT (List (ι × α)) m α := do
  let value ← f i
  modify (· ++ [(i, value)])
  pure value

variable [LawfulMonad m]

@[simp] theorem run_recorded (f : ι → m α) (i : ι) (calls : List (ι × α)) :
    (recorded f i).run calls = (fun value => (value, calls ++ [(i, value)])) <$> f i := by
  simp [recorded]

theorem run_mapM_recorded (f : ι → m α) (arguments : List ι) (calls : List (ι × α)) :
    (arguments.mapM (recorded f)).run calls =
      (fun values => (values, calls ++ arguments.zip values)) <$> arguments.mapM f := by
  induction arguments generalizing calls with
  | nil => simp
  | cons i arguments ih =>
      rw [List.mapM_cons, List.mapM_cons, StateT.run_bind, run_recorded, bind_map_left, map_bind]
      apply bind_congr
      intro value
      rw [StateT.run_bind, ih, bind_map_left, map_bind]
      apply bind_congr
      intro values
      simp

end Recorded

/-! ## Programs -/

/-- Ways to make a grid and to change it, one after the other. -/
inductive Script (m : Type → Type) : Type → Type 1 where
  | blank {α : Type} [Pixel α] (dims : List Nat) : Script m α
  | filled {α : Type} (dims : List Nat) (value : α) : Script m α
  | ofList {α : Type} (dims : List Nat) (values : List α) : Script m α
  | ofRows {α : Type} (rows : List (List α)) : Script m α
  | ofFn {α : Type} (dims : List Nat) (f : List Nat → m α) : Script m α
  | set {α : Type} (script : Script m α) (coords : List Nat) (value : α) : Script m α
  | setLinear {α : Type} (script : Script m α) (index : Nat) (value : α) : Script m α
  | updateBoundary {α : Type} (script : Script m α) (f : List Nat → α → m α) : Script m α
  | map {α β : Type} (f : α → β) (script : Script m α) : Script m β
  | zipWith {α β γ : Type} (f : α → β → γ) (left : Script m α) (right : Script m β) : Script m γ

namespace Script

variable {α : Type} {m : Type → Type} [Monad m]

/-- A refused write leaves the grid as it was. -/
def run {α : Type} : Script m α → m (Except GridError (Grid α))
  | blank dims => pure (Grid.blank dims)
  | filled dims value => pure (Grid.filled dims value)
  | ofList dims values => pure (Grid.ofList dims values)
  | ofRows rows => pure (Grid.ofRows rows)
  | ofFn dims f => Grid.ofFnM dims f
  | set script coords value => do
      let made ← script.run
      pure (made.map fun g => (g.set coords value).toOption.getD g)
  | setLinear script index value => do
      let made ← script.run
      pure (made.map fun g => (g.setLinear? index value).getD g)
  | updateBoundary script f => do
      match ← script.run with
      | .error e => pure (.error e)
      | .ok g => .ok <$> g.updateBoundaryM f
  | map f script => do
      let made ← script.run
      pure (made.map fun g => g.map f)
  | zipWith f left right => do
      let first ← left.run
      let second ← right.run
      pure (first.bind fun g => second.bind fun h => g.zipWith f h)

/-- What a program makes, in pictures. -/
def meaning {α : Type} : Script m α → m (Option (Picture α))
  | blank dims => pure (if Grid.Sized dims then some (.filled dims Pixel.zero) else none)
  | filled dims value => pure (if Grid.Sized dims then some (.filled dims value) else none)
  | ofList dims values =>
      pure (if Grid.Sized dims ∧ values.length = Shape.volume dims then some (.ofValues dims values)
        else none)
  | ofRows rows =>
      pure (if Grid.Sized [rows.length, Picture.width rows] ∧
          ∀ row ∈ rows, row.length = Picture.width rows then
        some (.ofRows rows) else none)
  | ofFn dims f =>
      if Grid.Sized dims then do
        let values ← (Shape.positions dims).mapM f
        pure (some (.ofValues dims values))
      else pure none
  | set script coords value => do
      let made? ← script.meaning
      pure (made?.map fun p => p.set coords value)
  | setLinear script index value => do
      let made? ← script.meaning
      pure (made?.map fun p => p.setLinear index value)
  | updateBoundary script f => do
      match ← script.meaning with
      | none => pure none
      | some p => some <$> p.updateBoundaryM f
  | map f script => do
      let made? ← script.meaning
      pure (made?.map fun p => p.map f)
  | zipWith f left right => do
      let first? ← left.meaning
      let second? ← right.meaning
      pure (first?.bind fun p => second?.bind fun q =>
        if p.dims = q.dims then some (.zipWith f p q) else none)

variable [LawfulMonad m]

theorem view_map {α β : Type} {change : Grid α → Grid β} {change' : Picture α → Picture β}
    (h : ∀ g, (change g).picture = change' g.picture) (made : Except GridError (Grid α)) :
    Grid.view (made.map change) = (Grid.view made).map change' := by
  cases made with
  | error e => rfl
  | ok g => exact congrArg some (h g)

theorem view_bind {α β : Type} {made : m (Except GridError (Grid α))}
    {pictured : m (Option (Picture α))} (h : Grid.view <$> made = pictured)
    {next : Except GridError (Grid α) → m (Except GridError (Grid β))}
    {next' : Option (Picture α) → m (Option (Picture β))}
    (hnext : ∀ made, Grid.view <$> next made = next' (Grid.view made)) :
    Grid.view <$> (made >>= next) = pictured >>= next' := by
  rw [← h, map_bind, bind_map_left]
  exact bind_congr hnext

/-- Grids show what the program means, and the callbacks have the same effects. -/
theorem view_run (script : Script m α) : Grid.view <$> script.run = script.meaning := by
  induction script with
  | blank dims => rw [run, map_pure, Grid.blank, Grid.view_filled, meaning]
  | filled dims value => rw [run, map_pure, Grid.view_filled, meaning]
  | ofList dims values => rw [run, map_pure, Grid.view_ofList, meaning]
  | ofRows rows => rw [run, map_pure, Grid.view_ofRows, meaning]
  | ofFn dims f => rw [run, Grid.view_ofFnM, meaning]
  | set script coords value ih =>
      apply view_bind ih
      intro made
      rw [map_pure]
      exact congrArg pure (view_map (fun g => g.picture_set coords value) made)
  | setLinear script index value ih =>
      apply view_bind ih
      intro made
      rw [map_pure]
      exact congrArg pure (view_map (fun g => g.picture_setLinear index value) made)
  | updateBoundary script f ih =>
      apply view_bind ih
      intro made
      cases made with
      | error e => exact map_pure _ _
      | ok g =>
          change Grid.view <$> (Except.ok <$> g.updateBoundaryM f) =
            some <$> g.picture.updateBoundaryM f
          rw [← Grid.picture_updateBoundaryM, Functor.map_map, Functor.map_map]
          rfl
  | map f script ih =>
      apply view_bind ih
      intro made
      rw [map_pure]
      exact congrArg pure (view_map (fun g => Grid.picture_map f g) made)
  | zipWith f left right ihl ihr =>
      apply view_bind ihl
      intro first
      apply view_bind ihr
      intro second
      rw [map_pure]
      cases first with
      | error e => rfl
      | ok g =>
          cases second with
          | error e => rfl
          | ok h => exact congrArg pure (Grid.view_zipWith f g h)

end Script

/-! ## The contract of a grid -/

/-- What a grid has in common with a finite map from the coordinates inside it. -/
structure Grid.IsMap {α : Type} (g : Grid α) : Prop where
  length_data : g.data.toList.length = Shape.volume g.dims
  isSome_get?_iff : ∀ coords, (g.get? coords).isSome = true ↔ List.Forall₂ (· < ·) coords g.dims
  set_inside : ∀ coords value, List.Forall₂ (· < ·) coords g.dims →
    ∃ next, g.set coords value = .ok next ∧ next.dims = g.dims ∧
      next.get? = Function.update g.get? coords (some value)
  set_outside : ∀ coords value, ¬ List.Forall₂ (· < ·) coords g.dims →
    g.set coords value = .error (.indexOutOfBounds coords g.dims)
  getNeighbor?_eq : ∀ coords offset, List.Forall₂ (· < ·) coords g.dims →
    List.Forall₂ Shape.SumFits coords offset →
    g.getNeighbor? coords offset =
      if ∀ x ∈ displaced coords offset, 0 ≤ x then
        g.get? ((displaced coords offset).map Int.toNat)
      else none

theorem Grid.isMap {α : Type} (g : Grid α) : g.IsMap where
  length_data := g.data.length_toList
  isSome_get?_iff coords := g.isSome_get?_iff.trans Shape.inside_iff_forall₂
  set_inside coords value hinside := by
    obtain ⟨p, rfl⟩ := Shape.exists_coordsOf_of_contains (Shape.inside_iff_forall₂.mpr hinside)
    exact ⟨_, g.set_coordsOf p value, rfl, g.get?_withValue p value⟩
  set_outside coords value houtside :=
    set_of_outside (Bool.eq_false_iff.mpr fun h => houtside (Shape.inside_iff_forall₂.mp h)) value
  getNeighbor?_eq coords offset hinside hsum :=
    g.getNeighbor?_eq (Shape.inside_iff_forall₂.mpr hinside) hsum

namespace Script

variable {m : Type → Type} [Monad m] [LawfulMonad m]

/-- However grids are made and changed, by callbacks of whatever effect, they are the finite maps
that the program means, and each answers as a finite map does. A grid that a function tabulates is
the map of the calls made, which meet each position once, in lexicographic order. -/
theorem run_faithful :
    (∀ {α : Type} (script : Script m α), Grid.view <$> script.run = script.meaning) ∧
      (∀ {α : Type} (g : Grid α), g.IsMap) ∧
      (∀ {α : Type} (dims : List Nat) (f : List Nat → m α),
        (Grid.view <$> Grid.ofFnM dims (recorded f)).run [] =
          if Grid.Sized dims then do
            let values ← (Shape.positions dims).mapM f
            let calls := (Shape.positions dims).zip values
            pure (some (.ofEntries dims calls), calls)
          else pure (none, [])) ∧
      (∀ dims : List Nat, (Shape.positions dims).Pairwise (· < ·) ∧
        ∀ coords, coords ∈ Shape.positions dims ↔ List.Forall₂ (· < ·) coords dims) ∧
      ∀ {α : Type} (rows : List (List α)) (g : Grid α), Grid.ofRows rows = .ok g →
        ∀ i j, g.get? [i, j] = rows[i]?.bind fun row => row[j]? := by
  refine ⟨view_run, fun g => g.isMap, ?_, ?_, ?_⟩
  · intro α dims f
    rw [Grid.view_ofFnM]
    split
    · rw [StateT.run_bind, run_mapM_recorded, bind_map_left]
      rfl
    · rfl
  · intro dims
    refine ⟨Shape.pairwise_lt_positions dims, ?_⟩
    intro coords
    exact Shape.mem_positions_iff.trans Shape.inside_iff_forall₂
  · intro α rows g hmade i j
    have hview := Grid.view_ofRows rows
    rw [hmade] at hview
    split at hview
    · have hpicture : g.picture = .ofRows rows := Option.some.inj hview
      exact congrFun (congrArg Picture.value? hpicture) [i, j]
    · cases hview

/-- A grid counted out, written in the middle and counted on along its boundary. -/
def tally : Script (StateM Nat) Nat :=
  let next : StateM Nat Nat := modifyGet fun n => (n, n + 1)
  .updateBoundary (.set (.ofFn [3, 3] fun _ => next) [1, 1] 70) fun _ value => (value + ·) <$> next

theorem run_tally_faithful :
    ∃ p : Picture Nat, Id.run (StateT.run (Grid.view <$> tally.run) 0) = (some p, 17) ∧
      p.value? [1, 1] = some 70 ∧ p.value? [2, 2] = some 24 ∧ p.value? [3, 0] = none := by
  rw [(run_faithful (m := StateM Nat)).1 tally]
  exact ⟨_, rfl, rfl, rfl, rfl⟩

end Script

end Morphology
