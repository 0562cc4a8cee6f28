import Morphology.Proofs.Opening.Survivors

/-! Openings of several radii form a granulometry: one after another they are the opening of the
largest radius, and so are closings. A component that survives the larger radius is not changed by
the smaller one, since each box inside a component is joined to it. -/

namespace Morphology

namespace Shape

variable {s : Shape} {connectivity : Connectivity} {S : Set (Fin s.len)} {p q : Fin s.len}

theorem Survives.mem {radius : Nat} (h : s.Survives connectivity radius S p) : p ∈ S := by
  obtain ⟨y, hlinked, _⟩ := h
  exact hlinked.mem_left

theorem Survives.of_linked {radius : Nat} (h : s.Survives connectivity radius S p)
    (hlinked : Linked (s.Adjacent connectivity) S q p) : s.Survives connectivity radius S q := by
  obtain ⟨y, hy, hbox⟩ := h
  exact ⟨y, hlinked.trans hy, hbox⟩

theorem survives_of_inBox {radius small large : Nat} {y : Fin s.len}
    (hbox : ∀ x, s.InBox large y x → x ∈ S) (hsmall : small ≤ large) (hradius : radius ≤ large)
    (hp : s.InBox radius y p) : s.Survives connectivity small S p := by
  refine ⟨y, ?_, fun x hx => hbox x (hx.mono hsmall)⟩
  apply (linked_inBox connectivity hp).mono
  intro x hx
  exact hbox x (InBox.mono hx hradius)

/-- What survives one radius and then another is what survives the larger of them. -/
theorem survives_survives_iff {first second : Nat} :
    s.Survives connectivity second {q | s.Survives connectivity first S q} p ↔
      s.Survives connectivity (max first second) S p := by
  constructor
  · intro htwice
    obtain ⟨y, hlinked, hbox⟩ := htwice
    have hy : s.Survives connectivity first S y := hlinked.mem_right
    have hinside : Linked (s.Adjacent connectivity) S p y := hlinked.mono fun _ hx => hx.mem
    rcases le_total first second with hle | hle
    · rw [max_eq_right hle]
      exact ⟨y, hinside, fun x hx => (hbox x hx).mem⟩
    · rw [max_eq_left hle]
      exact hy.of_linked hinside
  · intro hlargest
    obtain ⟨y, hlinked, hbox⟩ := hlargest
    have hfirst (x) (hx : s.InBox second y x) : s.Survives connectivity first S x :=
      survives_of_inBox hbox (le_max_left _ _) (le_max_right _ _) hx
    have hy : s.Survives connectivity first S y := hfirst y (inBox_self second y)
    refine ⟨y, hlinked.of_component fun x hx => ?_, hfirst⟩
    exact hy.of_linked ((linked_symm hx).trans hlinked)

end Shape

namespace Grid

variable {range : IntRange} {g first : Grid (Sample range)} {kind : Kind}
  {connectivity : Connectivity} {r s : Nat}

theorem simplify_simplify (hr : r ≤ maxRadius) (hs : s ≤ maxRadius)
    (hfirst : g.simplify kind r connectivity = .ok first) :
    first.simplify kind s connectivity = g.simplify kind (max r s) connectivity := by
  have hbounded := allBounded_sample g.data
  obtain ⟨once, honce, _, hlevelOnce⟩ := simplify_spec g kind connectivity hr hbounded
  obtain rfl : first = g.withData once := Except.ok.inj (hfirst.symm.trans honce)
  obtain ⟨twice, htwice, _, hlevelTwice⟩ :=
    simplify_spec (g.withData once) kind connectivity hs (allBounded_sample once)
  obtain ⟨largest, hlargest, _, hlevelLargest⟩ :=
    simplify_spec g kind connectivity (max_le hr hs) hbounded
  have hsame : twice = largest := by
    apply eq_of_thresholds kind
    intro t p
    calc t ≤ levels kind twice p
        ↔ g.shape.Survives connectivity s {q | t ≤ levels kind once q} p := hlevelTwice t p
      _ ↔ g.shape.Survives connectivity s
            {q | g.shape.Survives connectivity r {x | t ≤ levels kind g.data x} q} p := by
          simp only [hlevelOnce]
      _ ↔ g.shape.Survives connectivity (max r s) {x | t ≤ levels kind g.data x} p :=
          Shape.survives_survives_iff
      _ ↔ t ≤ levels kind largest p := (hlevelLargest t p).symm
  rw [htwice, hlargest, hsame]
  rfl

theorem simplify_granulometry (g : Grid (Sample range)) (kind : Kind) (connectivity : Connectivity)
    (hr : r ≤ maxRadius) (hs : s ≤ maxRadius) :
    ∃ first second largest,
      g.simplify kind r connectivity = .ok first ∧
      g.simplify kind s connectivity = .ok second ∧
      g.simplify kind (max r s) connectivity = .ok largest ∧
      first.simplify kind s connectivity = .ok largest ∧
      second.simplify kind r connectivity = .ok largest ∧
      first.simplify kind r connectivity = .ok first := by
  have hbounded := allBounded_sample g.data
  obtain ⟨_, hfirst, _⟩ := simplify_spec g kind connectivity hr hbounded
  obtain ⟨_, hsecond, _⟩ := simplify_spec g kind connectivity hs hbounded
  obtain ⟨_, hlargest, _⟩ := simplify_spec g kind connectivity (max_le hr hs) hbounded
  refine ⟨_, _, _, hfirst, hsecond, hlargest, ?_, ?_, ?_⟩
  · rw [simplify_simplify hr hs hfirst, hlargest]
  · rw [simplify_simplify hs hr hsecond, max_comm, hlargest]
  · rw [simplify_simplify hr hr hfirst, max_self, hfirst]

/-- Openings of two radii one after the other are the opening of the larger radius, whichever comes
first, and an opening is idempotent. The same holds of closings. -/
theorem opening_closing_granulometry (g : Grid (Sample range)) (connectivity : Connectivity)
    (hr : r ≤ maxRadius) (hs : s ≤ maxRadius) :
    (∃ first second largest,
      g.openingByReconstruction r connectivity = .ok first ∧
      g.openingByReconstruction s connectivity = .ok second ∧
      g.openingByReconstruction (max r s) connectivity = .ok largest ∧
      first.openingByReconstruction s connectivity = .ok largest ∧
      second.openingByReconstruction r connectivity = .ok largest ∧
      first.openingByReconstruction r connectivity = .ok first) ∧
    (∃ first second largest,
      g.closingByReconstruction r connectivity = .ok first ∧
      g.closingByReconstruction s connectivity = .ok second ∧
      g.closingByReconstruction (max r s) connectivity = .ok largest ∧
      first.closingByReconstruction s connectivity = .ok largest ∧
      second.closingByReconstruction r connectivity = .ok largest ∧
      first.closingByReconstruction r connectivity = .ok first) := by
  exact ⟨simplify_granulometry g .dilation connectivity hr hs,
    simplify_granulometry g .erosion connectivity hr hs⟩

theorem opening_closing_meander_granulometry :
    1 ≤ maxRadius ∧ 2 ≤ maxRadius ∧
      (∃ first second largest,
        meander.openingByReconstruction 1 .face = .ok first ∧
        meander.openingByReconstruction 2 .face = .ok second ∧
        meander.openingByReconstruction 2 .face = .ok largest ∧
        first.openingByReconstruction 2 .face = .ok largest ∧
        second.openingByReconstruction 1 .face = .ok largest ∧
        first.openingByReconstruction 1 .face = .ok first) ∧
      (∃ first second largest,
        meander.closingByReconstruction 1 .face = .ok first ∧
        meander.closingByReconstruction 2 .face = .ok second ∧
        meander.closingByReconstruction 2 .face = .ok largest ∧
        first.closingByReconstruction 2 .face = .ok largest ∧
        second.closingByReconstruction 1 .face = .ok largest ∧
        first.closingByReconstruction 1 .face = .ok first) :=
  ⟨by decide, by decide, opening_closing_granulometry meander .face (by decide) (by decide)⟩

end Grid

end Morphology
