import Morphology.Proofs.Box.Scan

/-! Laws of box filters. Dilation and erosion by one box are adjoint, and the radii of filters one
after another add up, whether or not the boxes stick out of the shape. -/

namespace Morphology.Grid

variable {range : IntRange}

/-- A dilated grid lies below a bound exactly if the grid lies below the eroded bound. -/
theorem dilateBox_le_iff_le_erodeBox (g : Grid (Sample range))
    (bound : Vector (Sample range) g.shape.len) {radius : Nat} (hradius : radius ≤ maxRadius) :
    ∃ dilated eroded,
      g.dilateBox radius = .ok (g.withData dilated) ∧
      (g.withData bound).erodeBox radius = .ok (g.withData eroded) ∧
      ((∀ p, (dilated.get p).val ≤ (bound.get p).val) ↔
        ∀ p, (g.data.get p).val ≤ (eroded.get p).val) := by
  obtain ⟨dilated, hdilate, hdilated⟩ :=
    filterBox_filtered g .dilation hradius (allBounded_sample g.data)
  obtain ⟨eroded, herode, heroded⟩ :=
    filterBox_filtered (g.withData bound) .erosion hradius (allBounded_sample bound)
  have hsymm (p q : Fin g.shape.len) (hpq : g.shape.InBox radius p q) : g.shape.InBox radius q p :=
    hpq.symm
  exact ⟨dilated, eroded, hdilate, herode, hdilated.le_iff_le heroded hsymm⟩

theorem dilateBox_meander_le_iff_le_erodeBox :
    2 ≤ maxRadius ∧
      ∃ dilated eroded,
        meander.dilateBox 2 = .ok (meander.withData dilated) ∧
        (meander.withData (meanderSeed 9)).erodeBox 2 = .ok (meander.withData eroded) ∧
        ((∀ p, (dilated.get p).val ≤ ((meanderSeed 9).get p).val) ↔
          ∀ p, (meander.data.get p).val ≤ (eroded.get p).val) :=
  ⟨by decide, dilateBox_le_iff_le_erodeBox meander (meanderSeed 9) (by decide)⟩

theorem filterBox_filterBox (g : Grid (Sample range)) (kind : Kind) {a b : Nat}
    (h : a + b ≤ maxRadius) :
    ∃ first both,
      g.filterBox a kind = .ok first ∧
      first.filterBox b kind = .ok both ∧
      g.filterBox (a + b) kind = .ok both := by
  obtain ⟨first, hfirst, hfirstFiltered⟩ :=
    filterBox_filtered g kind ((Nat.le_add_right a b).trans h) (allBounded_sample g.data)
  obtain ⟨both, hboth, hbothFiltered⟩ :
      ∃ both, (g.withData first).filterBox b kind = .ok (g.withData both) ∧
        Filtered kind (g.shape.InBox b) first both :=
    filterBox_filtered (g.withData first) kind ((Nat.le_add_left b a).trans h)
      (allBounded_sample first)
  obtain ⟨direct, hdirect, hdirectFiltered⟩ :=
    filterBox_filtered g kind h (allBounded_sample g.data)
  have hsum : Filtered kind (g.shape.InBox (a + b)) g.data both := by
    apply (hfirstFiltered.trans hbothFiltered).congr
    intro p q
    rw [Shape.inBox_inBox_iff, Nat.add_comm]
  refine ⟨_, _, hfirst, hboth, ?_⟩
  rw [hdirect, hdirectFiltered.unique hsum]

/-- Box erosions one after another are the erosion by the sum of their radii, and so are box
dilations, for all radii with an accepted sum. -/
theorem erodeBox_dilateBox_add (g : Grid (Sample range)) {a b : Nat} (h : a + b ≤ maxRadius) :
    (∃ first both,
      g.erodeBox a = .ok first ∧ first.erodeBox b = .ok both ∧ g.erodeBox (a + b) = .ok both) ∧
    (∃ first both,
      g.dilateBox a = .ok first ∧ first.dilateBox b = .ok both ∧
        g.dilateBox (a + b) = .ok both) :=
  ⟨filterBox_filterBox g .erosion h, filterBox_filterBox g .dilation h⟩

theorem erodeBox_dilateBox_meander_add :
    2 + 3 ≤ maxRadius ∧
      (∃ first both,
        meander.erodeBox 2 = .ok first ∧ first.erodeBox 3 = .ok both ∧
          meander.erodeBox (2 + 3) = .ok both) ∧
      (∃ first both,
        meander.dilateBox 2 = .ok first ∧ first.dilateBox 3 = .ok both ∧
          meander.dilateBox (2 + 3) = .ok both) :=
  ⟨by decide, erodeBox_dilateBox_add meander (by decide)⟩

end Morphology.Grid
