import Morphology.Proofs.Box.Scan
import Morphology.Proofs.Propagation.Components

/-! Opening and closing by reconstruction keep, at every level, exactly the components that hold a
whole box. -/

namespace Morphology

/-- The component of an element in a set holds a box of the radius, as far as the box lies inside
the shape. An element outside the set has no component. -/
def Shape.Survives (s : Shape) (connectivity : Connectivity) (radius : Nat) (S : Set (Fin s.len))
    (p : Fin s.len) : Prop :=
  ∃ y, Linked (s.Adjacent connectivity) S p y ∧ ∀ x, s.InBox radius y x → x ∈ S

namespace Grid

variable {α : Type} [Pixel α]

/-- The filtered grid is an accepted marker for every radius that is not too large, and a threshold
is reached exactly from the boxes that attain it, those that stick out together with the identity of
the filter. -/
theorem simplify_padded (g : Grid α) (kind : Kind) (connectivity : Connectivity) {radius : Nat}
    (hradius : radius ≤ maxRadius) (h : AllOrdered g.data)
    (hidentity : Pixel.Ordered (kind.opposite.identity : α)) :
    ∃ result, g.simplify kind radius connectivity = .ok (g.withData result) ∧ AllOrdered result ∧
      ∀ t p, t ≤ levels kind result p ↔
        ∃ y, Linked (g.shape.Adjacent connectivity) {x | t ≤ levels kind g.data x} p y ∧
          (∀ x, g.shape.InBox radius y x → t ≤ levels kind g.data x) ∧
          (g.shape.Clipped radius y → t ≤ kind.level (kind.opposite.identity : α)) := by
  obtain ⟨marker, hfilter, hmarker⟩ := filterBox_padded g kind.opposite hradius h hidentity
  obtain ⟨hordered, hlevel⟩ := propagate_schedule_spec kind connectivity h hmarker.ordered
  refine ⟨_, ?_, hordered, ?_⟩
  · exact restoredFrom_unchecked hfilter
  · intro t p
    rw [hlevel, reached_iff_exists_linked]
    simp only [hmarker.opposite_le_iff]
    constructor
    · intro hreached
      obtain ⟨y, hbox, hlinked⟩ := hreached
      exact ⟨y, Shape.linked_symm hlinked, hbox⟩
    · intro hkept
      obtain ⟨y, hlinked, hbox⟩ := hkept
      exact ⟨y, hbox, Shape.linked_symm hlinked⟩

theorem simplify_spec (g : Grid α) (kind : Kind) (connectivity : Connectivity) {radius : Nat}
    (hradius : radius ≤ maxRadius) (h : AllBounded g.data) :
    ∃ result, g.simplify kind radius connectivity = .ok (g.withData result) ∧ AllOrdered result ∧
      ∀ t p, t ≤ levels kind result p ↔
        g.shape.Survives connectivity radius {x | t ≤ levels kind g.data x} p := by
  have hidentity := (h ⟨0, g.shape.len_pos⟩).ordered_identity kind.opposite
  obtain ⟨result, hsimplify, hordered, hlevel⟩ :=
    simplify_padded g kind connectivity hradius h.allOrdered hidentity
  refine ⟨result, hsimplify, hordered, fun t p => ?_⟩
  rw [hlevel]
  refine exists_congr fun y => and_congr_right fun _ => and_iff_left_of_imp fun hbox _ => ?_
  have hbound := (h y).level_identity_le kind.opposite
  rw [Kind.level_opposite, Kind.level_opposite, neg_le_neg_iff] at hbound
  exact (hbox y (Shape.inBox_self radius y)).trans hbound

/-- At every level an opening keeps exactly the elements whose components among the elements at
least as high hold a whole box. A closing does the same among the elements at most as high. -/
theorem opening_closing_iff_survives {range : IntRange} (g : Grid (Sample range)) {radius : Nat}
    (hradius : radius ≤ maxRadius) (connectivity : Connectivity) :
    (∃ opened, g.openingByReconstruction radius connectivity = .ok (g.withData opened) ∧
      ∀ p (t : Int), t ≤ (opened.get p).val ↔
        g.shape.Survives connectivity radius {x | t ≤ (g.data.get x).val} p) ∧
    (∃ closed, g.closingByReconstruction radius connectivity = .ok (g.withData closed) ∧
      ∀ p (t : Int), (closed.get p).val ≤ t ↔
        g.shape.Survives connectivity radius {x | (g.data.get x).val ≤ t} p) := by
  obtain ⟨opened, hopen, _, hopened⟩ :=
    simplify_spec g .dilation connectivity hradius (allBounded_sample g.data)
  obtain ⟨closed, hclose, _, hclosed⟩ :=
    simplify_spec g .erosion connectivity hradius (allBounded_sample g.data)
  refine ⟨⟨opened, hopen, fun p t => hopened t p⟩, ⟨closed, hclose, fun p t => ?_⟩⟩
  have hlevel := hclosed (-t) p
  simp only [levels, Kind.level, Sample.rank_eq, Option.getD_some, neg_le_neg_iff] at hlevel
  exact hlevel

theorem opening_closing_meander_iff_survives :
    1 ≤ maxRadius ∧
      (∃ opened, meander.openingByReconstruction 1 .full = .ok (meander.withData opened) ∧
        ∀ p (t : Int), t ≤ (opened.get p).val ↔
          meander.shape.Survives .full 1 {x | t ≤ (meander.data.get x).val} p) ∧
      (∃ closed, meander.closingByReconstruction 1 .full = .ok (meander.withData closed) ∧
        ∀ p (t : Int), (closed.get p).val ≤ t ↔
          meander.shape.Survives .full 1 {x | (meander.data.get x).val ≤ t} p) :=
  ⟨by decide, opening_closing_iff_survives meander (by decide) .full⟩

end Grid

end Morphology
