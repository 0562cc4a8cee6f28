import Morphology.Proofs.Propagation.Components
import Morphology.Proofs.Reconstruction.Result

/-! Reconstruction along paths: every element takes the furthest value that comes to it from a
marker element through the masks on the way. -/

namespace Morphology

variable {α : Type} [Pixel α] {n : Nat} {kind : Kind} {mask marker : Vector α n}

/-- What is left of a marker value at the end of a path: it is cut at every mask on the way. -/
def bottleneck (kind : Kind) (mask marker : Vector α n) (q : Fin n) (path : List (Fin n)) : α :=
  (path.map mask.get).foldl kind.clamp (marker.get q)

theorem ordered_bottleneck (kind : Kind) (mask : Vector α n) (hmarker : AllOrdered marker)
    (q : Fin n) (path : List (Fin n)) : Pixel.Ordered (bottleneck kind mask marker q path) :=
  Kind.ordered_foldl_clamp kind _ (hmarker q)

theorem le_level_bottleneck_iff (kind : Kind) (hmask : AllOrdered mask)
    (hmarker : AllOrdered marker) (q : Fin n) (path : List (Fin n)) {t : Int} :
    t ≤ kind.level (bottleneck kind mask marker q path) ↔
      t ≤ levels kind marker q ∧ ∀ x ∈ path, t ≤ levels kind mask x := by
  rw [bottleneck,
    Kind.le_level_foldl_clamp_iff kind (fun _ => ordered_of_mem_map hmask) (hmarker q)]
  simp only [List.mem_map, forall_exists_index, and_imp, forall_apply_eq_imp_iff₂, levels]

/-- A value is the furthest of a set if it equals a member and no member lies beyond it: the
greatest for a dilation, the least for an erosion. -/
def IsFurthest (kind : Kind) (S : Set α) (a : α) : Prop :=
  (∃ b ∈ S, Pixel.eq a b = true) ∧ ∀ b ∈ S, kind.respects b a = true

/-- The values that come to an element along all paths from all elements. -/
def pathValues (kind : Kind) (adjacent : Fin n → Fin n → Prop) (mask marker : Vector α n)
    (p : Fin n) : Set α :=
  {value | ∃ q path, IsPath adjacent q p path ∧ value = bottleneck kind mask marker q path}

theorem isFurthest_pathValues {adjacent : Fin n → Fin n → Prop} {p : Fin n} {a : α}
    (hmask : AllOrdered mask) (hmarker : AllOrdered marker) (ha : Pixel.Ordered a)
    (h : ∀ t, t ≤ kind.level a ↔ Reached adjacent (levels kind mask) (levels kind marker) t p) :
    IsFurthest kind (pathValues kind adjacent mask marker p) a := by
  have hordered := ordered_bottleneck kind mask hmarker
  have hlevel (q : Fin n) (path : List (Fin n)) (t : Int) :=
    le_level_bottleneck_iff kind hmask hmarker q path (t := t)
  have hbound (q : Fin n) (path : List (Fin n)) (hpath : IsPath adjacent q p path) :
      kind.level (bottleneck kind mask marker q path) ≤ kind.level a := by
    rw [h, reached_iff_exists_path]
    exact ⟨q, path, hpath, (hlevel q path _).mp le_rfl⟩
  constructor
  · obtain ⟨q, path, hpath, hreach⟩ := reached_iff_exists_path.mp ((h _).mp le_rfl)
    refine ⟨_, ⟨q, path, hpath, rfl⟩, (Kind.eq_iff kind ha (hordered q path)).mpr ?_⟩
    exact le_antisymm ((hlevel q path _).mpr hreach) (hbound q path hpath)
  · rintro _ ⟨q, path, hpath, rfl⟩
    exact (Kind.respects_iff (hordered q path) ha).mpr (hbound q path hpath)

/-- Reconstruction of a marker that respects its mask succeeds, and gives every element the furthest
value over all paths to it, the path that stays at the element among them. -/
theorem reconstruct_isFurthest_pathValues (mask : Grid α) (marker : Vector α mask.shape.len)
    (o : Options) (hmask : AllOrdered mask.data) (hmarker : AllOrdered marker)
    (hrespects : ∀ p, o.kind.respects (marker.get p) (mask.data.get p) = true) :
    ∃ result : Vector α mask.shape.len,
      (mask.withData marker).reconstruct mask o = .ok (mask.withData result) ∧
        ∀ p, IsFurthest o.kind
          (pathValues o.kind (mask.shape.Adjacent o.connectivity) mask.data marker p)
          (result.get p) := by
  obtain ⟨hordered, hlevel⟩ := Grid.propagate_schedule_spec o.kind o.connectivity hmask hmarker
  refine ⟨_, Grid.reconstruct_withData fun _ => hrespects, ?_⟩
  intro p
  exact isFurthest_pathValues hmask hmarker (hordered p) fun t => hlevel t p

theorem reconstruct_meander_isFurthest :
    (∀ p, Kind.dilation.respects ((Grid.meanderSeed 3).get p) (Grid.meander.data.get p) = true) ∧
      ∃ result : Vector (Sample .u8) Grid.meander.shape.len,
        (Grid.meander.withData (Grid.meanderSeed 3)).reconstruct Grid.meander .dilation =
            .ok (Grid.meander.withData result) ∧
          ∀ p, IsFurthest .dilation
            (pathValues .dilation (Grid.meander.shape.Adjacent .face) Grid.meander.data
              (Grid.meanderSeed 3) p)
            (result.get p) :=
  ⟨Grid.respects_meanderSeed,
    reconstruct_isFurthest_pathValues Grid.meander (Grid.meanderSeed 3) .dilation
      (allOrdered_sample _) (allOrdered_sample _) Grid.respects_meanderSeed⟩

end Morphology
