import Morphology.Grid.Basic
import Morphology.Proofs.Level
import Morphology.Proofs.Shape.Stepping

/-! The boundary of a shape is never empty, and an update of the boundary writes every element of it
once and no other. -/

namespace Morphology

/-- The elements at the first or the last place of some axis. -/
def Shape.boundary (s : Shape) : Set (Fin s.len) :=
  {p | s.isBoundary (s.coordsOf p) = true}

theorem Shape.first_mem_boundary (s : Shape) : (⟨0, s.len_pos⟩ : Fin s.len) ∈ s.boundary := by
  have htouches : touches (List.replicate s.dims.length 0) s.dims = true := by
    cases hdims : s.dims with
    | nil => exact absurd hdims s.dims_ne_nil
    | cons d ds => simp [List.replicate_succ, touches]
  change s.isBoundary (s.coordsOf 0) = true
  rw [coordsOf_zero]
  exact htouches

namespace Grid

variable {α : Type}

theorem getLinear?_eq_some_get (g : Grid α) (p : Fin g.shape.len) :
    g.getLinear? p = some (g.data.get p) :=
  Vector.getElem?_eq_getElem p.isLt

theorem lookup_eq_none_of_notMem {κ : Type} [BEq κ] [LawfulBEq κ] {entries : List (κ × α)}
    {key : κ} (h : key ∉ entries.map Prod.fst) : entries.lookup key = none := by
  rw [List.lookup_eq_none_iff]
  intro entry hentry
  have hne : key ≠ entry.1 := fun heq => h (List.mem_map.mpr ⟨entry, hentry, heq.symm⟩)
  simpa using hne

section Overwritten

variable {n : Nat}

def overwrite (data : Vector α n) (entries : List (Fin n × α)) : Vector α n :=
  entries.foldl (fun data entry => data.set entry.1 entry.2 entry.1.isLt) data

/-- Where no element is written twice, each has the value written to it or its old one. -/
theorem get_overwrite {entries : List (Fin n × α)} (hnodup : (entries.map Prod.fst).Nodup)
    (data : Vector α n) (p : Fin n) :
    (overwrite data entries).get p = (entries.lookup p).getD (data.get p) := by
  induction entries generalizing data with
  | nil => rfl
  | cons entry entries ih =>
      rw [List.map_cons, List.nodup_cons] at hnodup
      have hrest := ih hnodup.2 (data.set entry.1 entry.2 entry.1.isLt)
      rw [overwrite, List.foldl_cons, ← overwrite, hrest, get_set, List.lookup_cons]
      by_cases hp : p = entry.1
      · have hnone : entries.lookup p = none := lookup_eq_none_of_notMem (hp ▸ hnodup.1)
        rw [hnone, if_pos hp, beq_iff_eq.mpr hp]
        rfl
      · rw [if_neg hp, beq_eq_false_iff_ne.mpr hp]

variable {m : Type → Type} [Monad m] [LawfulMonad m]

theorem foldlM_set {f : Fin n → α → m α} {old : Fin n → α} {ps : List (Fin n)} (hnodup : ps.Nodup)
    (data : Vector α n) (hold : ∀ p ∈ ps, data.get p = old p) :
    ps.foldlM (fun data p => do
      let value ← f p (data.get p)
      pure (data.set p value p.isLt)) data =
      (fun values => overwrite data (ps.zip values)) <$> ps.mapM fun p => f p (old p) := by
  induction ps generalizing data with
  | nil => simp [overwrite]
  | cons p ps ih =>
      rw [List.nodup_cons] at hnodup
      simp only [List.foldlM_cons, List.mapM_cons, bind_assoc, pure_bind, map_bind, map_pure]
      rw [hold p List.mem_cons_self]
      apply bind_congr
      intro value
      -- No later element is this one, so the new value is never read.
      have hrest : ∀ q ∈ ps, (data.set p value p.isLt).get q = old q := by
        intro q hq
        have hne : q ≠ p := fun h => hnodup.1 (h ▸ hq)
        rw [get_set, if_neg hne, hold q (List.mem_cons_of_mem p hq)]
      rw [ih hnodup.2 _ hrest, ← bind_pure_comp]
      rfl

end Overwritten

def boundaryElements (s : Shape) : List (Fin s.len) :=
  (List.finRange s.len).filter fun p => s.isBoundary (s.coordsOf p)

theorem nodup_boundaryElements (s : Shape) : (boundaryElements s).Nodup :=
  (List.nodup_finRange s.len).filter _

theorem mem_boundaryElements_iff {s : Shape} {p : Fin s.len} :
    p ∈ boundaryElements s ↔ s.isBoundary (s.coordsOf p) = true := by
  simp [boundaryElements]

section Effects

variable {m : Type → Type} [Monad m]

/-- What an update does where it passes by. -/
def updateSite (s : Shape) (f : List Nat → α → m α) (data : Vector α s.len) (site : Site s) :
    m (Vector α s.len) :=
  if s.isBoundary site.coords then do
    let value ← f site.coords (data.get site.index)
    pure (data.set site.index value site.index.isLt)
  else pure data

variable [LawfulMonad m]

/-- An update asks for all new values in row-major order, each from the old value of its element. -/
theorem foldlM_updateSite {s : Shape} (f : List Nat → α → m α) (data : Vector α s.len) :
    s.sites.foldlM (updateSite s f) data =
      (fun values => overwrite data ((boundaryElements s).zip values)) <$>
        (boundaryElements s).mapM fun p : Fin s.len => f (s.coordsOf p) (data.get p) := by
  have hwrites := foldlM_set (f := fun p => f (s.coordsOf p)) (nodup_boundaryElements s) data
    fun p _ => rfl
  rw [boundaryElements, List.foldlM_filter, ← boundaryElements] at hwrites
  rw [Shape.sites_eq, List.foldlM_map]
  exact hwrites

theorem updateBoundaryM_eq (g : Grid α) (f : List Nat → α → m α) :
    g.updateBoundaryM f =
      (fun values =>
        { g with data := overwrite g.data ((boundaryElements g.shape).zip values) }) <$>
        (boundaryElements g.shape).mapM fun p : Fin g.shape.len =>
          f (g.shape.coordsOf p) (g.data.get p) := by
  have hloop : g.updateBoundaryM f =
      (fun data => { g with data }) <$> g.shape.sites.foldlM (updateSite g.shape f) g.data := by
    rw [← bind_pure_comp]
    rfl
  rw [hloop, foldlM_updateSite, Functor.map_map]

end Effects

theorem data_updateBoundary (g : Grid α) (f : List Nat → α → α) :
    @Eq (Vector α g.shape.len) (g.updateBoundary f).data
      (overwrite g.data ((boundaryElements g.shape).map fun p : Fin g.shape.len =>
        (p, f (g.shape.coordsOf p) (g.data.get p)))) := by
  change (List.foldlM (m := Id) (updateSite g.shape _) g.data g.shape.sites).run = _
  rw [foldlM_updateSite, Id.run_map, List.idRun_mapM]
  have hzip := List.zip_map' (f := id) (l := boundaryElements g.shape)
    (g := fun p : Fin g.shape.len => f (g.shape.coordsOf p) (g.data.get p))
  rw [List.map_id] at hzip
  exact congrArg (overwrite g.data) hzip

/-- An update writes exactly the boundary, each element from its own old value. -/
theorem get_updateBoundary (g : Grid α) (f : List Nat → α → α) (p : Fin g.shape.len) :
    @Vector.get α g.shape.len (g.updateBoundary f).data p =
      if g.shape.isBoundary (g.shape.coordsOf p) then f (g.shape.coordsOf p) (g.data.get p)
      else g.data.get p := by
  have hkeys : ((boundaryElements g.shape).map fun q : Fin g.shape.len =>
      (q, f (g.shape.coordsOf q) (g.data.get q))).map Prod.fst = boundaryElements g.shape := by
    simp [Function.comp_def]
  rw [data_updateBoundary, get_overwrite (by rw [hkeys]; exact nodup_boundaryElements g.shape)]
  by_cases hp : g.shape.isBoundary (g.shape.coordsOf p) = true
  · rw [if_pos hp, List.lookup_graph _ (mem_boundaryElements_iff.mpr hp), Option.getD_some]
  · have hinner : p ∉ boundaryElements g.shape := fun h => hp (mem_boundaryElements_iff.mp h)
    rw [if_neg hp, lookup_eq_none_of_notMem (by rwa [hkeys]), Option.getD_none]

end Grid

end Morphology
