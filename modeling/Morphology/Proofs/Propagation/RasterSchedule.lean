import Mathlib.Data.List.Sort
import Morphology.Proofs.Propagation.Schedule
import Morphology.Proofs.Shape.UnitSteps

/-! The schedule of a shape lists neighbors by increasing index. So the schedule depends on nothing
but which elements are adjacent. -/

namespace Morphology

/-- Seen from one position, displacements are ordered like the positions they lead to. -/
theorem displacement_lt_iff {a b c : List Nat} (hb : b.length = a.length)
    (hc : c.length = a.length) : displacement a b < displacement a c ↔ b < c := by
  induction a generalizing b c with
  | nil =>
      rw [List.length_eq_zero_iff.mp hb, List.length_eq_zero_iff.mp hc]
      simp [displacement]
  | cons x xs ih =>
      cases b with
      | nil => simp at hb
      | cons y ys =>
          cases c with
          | nil => simp at hc
          | cons z zs =>
              have hrest := ih (by simpa using hb) (by simpa using hc)
              have hlt : (y : Int) - x < z - x ↔ y < z := by omega
              have heq : (y : Int) - x = z - x ↔ y = z := by omega
              simp only [displacement_cons, List.cons_lt_cons_iff, hrest, hlt, heq]

namespace Shape

variable {s : Shape} {connectivity : Connectivity}

theorem pairwise_lt_neighborsOf (hlen : s.len < Word.half) {offsets : List Offset}
    (hsteps : ∀ offset ∈ offsets, s.IsStep offset)
    (hsorted : offsets.Pairwise fun offset next => offset.delta < next.delta) (p : Fin s.len) :
    (s.neighborsOf offsets (s.site p)).Pairwise (· < ·) := by
  rw [neighborsOf, List.pairwise_filterMap]
  apply (hsorted.filter _).imp_of_mem
  intro offset next hoffset hnext hlt q hq r hr
  rw [List.mem_filter] at hoffset hnext
  rw [site, shift?_eq_some_iff hlen (hsteps offset hoffset.1) hoffset.2] at hq
  rw [site, shift?_eq_some_iff hlen (hsteps next hnext.1) hnext.2] at hr
  have hlength (i : Fin s.len) : (s.coordsOf i).length = (s.coordsOf p).length := by
    rw [length_coordsOf, length_coordsOf]
  rw [← hq, ← hr, displacement_lt_iff (hlength q) (hlength r)] at hlt
  exact coordsOf_lt_iff.mp hlt

theorem pairwise_lt_full : (s.neighborhood connectivity).full.Pairwise fun offset next =>
    offset.delta < next.delta := by
  simp only [neighborhood, neighborOffsets, List.map_map, List.pairwise_map]
  exact (pairwise_lt_unitSteps s.ndim).filter _

theorem causal_sublist_full :
    (s.neighborhood connectivity).causal.Sublist (s.neighborhood connectivity).full := by
  simp [neighborhood, partition, List.partition_eq_filter_filter]

theorem anticausal_sublist_full :
    (s.neighborhood connectivity).anticausal.Sublist (s.neighborhood connectivity).full := by
  simp [neighborhood, partition, List.partition_eq_filter_filter]

end Shape

variable {n : Nat}

/-- Both sweeps pass all elements, and neighbors are listed by increasing index. -/
def rasterSchedule (adjacent : Fin n → Fin n → Prop) [DecidableRel adjacent] : Schedule n where
  forward := (List.finRange n).map fun p =>
    ⟨p, (List.finRange n).filter fun q => adjacent p q ∧ q < p⟩
  backward := (List.finRange n).reverse.map fun p =>
    ⟨p, (List.finRange n).filter fun q => adjacent p q ∧ p < q⟩
  neighbors := fun p => (List.finRange n).filter fun q => adjacent p q

theorem eq_filter_finRange {indices : List (Fin n)} {P : Fin n → Prop} [DecidablePred P]
    (hsorted : indices.Pairwise (· < ·)) (hmem : ∀ q, q ∈ indices ↔ P q) :
    indices = (List.finRange n).filter fun q => P q := by
  apply hsorted.eq_of_mem_iff ((List.pairwise_lt_finRange n).filter _)
  intro q
  simp [hmem]

namespace Shape

variable {s : Shape}

/-- Shapes whose elements touch alike are run through alike. -/
theorem schedule_eq (hlen : s.len < Word.half) (connectivity : Connectivity) :
    s.schedule connectivity = rasterSchedule (s.Adjacent connectivity) := by
  have hlist (offsets : List Offset) (p : Fin s.len) (P : Fin s.len → Prop) [DecidablePred P]
      (hsub : offsets.Sublist (s.neighborhood connectivity).full)
      (hmem : ∀ q, q ∈ s.neighborsOf offsets (s.site p) ↔ P q) :
      s.neighborsOf offsets (s.site p) = (List.finRange s.len).filter fun q => P q := by
    apply eq_filter_finRange _ hmem
    apply pairwise_lt_neighborsOf hlen _ (pairwise_lt_full.sublist hsub)
    intro offset hoffset
    exact isStep_of_mem_full (hsub.subset hoffset)
  have hforward (p : Fin s.len) :=
    hlist _ p _ causal_sublist_full fun q => mem_neighborsOf_causal hlen
  have hbackward (p : Fin s.len) :=
    hlist _ p _ anticausal_sublist_full fun q => mem_neighborsOf_anticausal hlen
  have hneighbors (p : Fin s.len) :=
    hlist _ p _ (List.Sublist.refl _) fun q => mem_neighborsOf_full hlen
  have hparts : s.schedule connectivity = ⟨(s.schedule connectivity).forward,
    (s.schedule connectivity).backward, (s.schedule connectivity).neighbors⟩ := rfl
  rw [hparts, schedule_forward, schedule_backward, rasterSchedule]
  simp only [hforward, hbackward]
  congr 1
  funext p
  exact hneighbors p

end Shape

end Morphology
