import Morphology.Proofs.Grid.Access
import Morphology.Proofs.Reconstruction.Result

/-! Reconstruction refuses grids of different shapes and, when it checks, a marker on the wrong side
of its mask. It names the first such element, and the refused marker stays as it was. -/

namespace Morphology.Grid

variable {α : Type} [Pixel α]

/-- At some coordinates the marker's value lies on the wrong side of the mask's. -/
structure ViolatesAt (marker mask : Grid α) (kind : Kind) (coords : List Nat) (a b : α) :
    Prop where
  marker_eq : marker.get? coords = some a
  mask_eq : mask.get? coords = some b
  wrong : kind.respects a b = false

/-- All values before, in the lexicographic order of coordinates, lie on the right side. -/
structure FirstViolation (marker mask : Grid α) (kind : Kind) (coords : List Nat) (a b : α) : Prop
    extends ViolatesAt marker mask kind coords a b where
  first : ∀ earlier < coords, ∀ c d, marker.get? earlier = some c → mask.get? earlier = some d →
    kind.respects c d = true

/-- The grounds of a refusal. The shapes are compared whether or not the values are checked. -/
inductive Refused (marker mask : Grid α) (kind : Kind) (check : Bool) : OperatorError α → Prop where
  | shape (hdims : marker.dims ≠ mask.dims) :
      Refused marker mask kind check (.shapeMismatch marker.dims mask.dims)
  | violation {coords a b} (hdims : marker.dims = mask.dims) (hcheck : check = true)
      (hfirst : marker.FirstViolation mask kind coords a b) :
      Refused marker mask kind check (.preconditionViolation coords a b)

/-! ## The first violation -/

section Layout

variable {mask : Grid α} {marker : Vector α mask.shape.len} {kind : Kind}

theorem violation?_eq_some_iff {p : Fin mask.shape.len} :
    (mask.withData marker).violation? mask.data kind = some p ↔
      kind.respects (marker.get p) (mask.data.get p) = false ∧
        ∀ q < p, kind.respects (marker.get q) (mask.data.get q) = true := by
  unfold violation? withData
  rw [List.find?_eq_some_iff_getElem]
  simp only [List.length_finRange, List.getElem_finRange, Bool.not_eq_true', Bool.not_not]
  constructor
  · rintro ⟨hwrong, i, hi, rfl, hbefore⟩
    exact ⟨hwrong, fun q hq => hbefore q hq⟩
  · rintro ⟨hwrong, hbefore⟩
    exact ⟨hwrong, p, p.isLt, rfl, fun i hi => hbefore ⟨i, hi.trans p.isLt⟩ hi⟩

theorem violatesAt_withData_iff {coords : List Nat} {a b : α} :
    (mask.withData marker).ViolatesAt mask kind coords a b ↔
      ∃ p : Fin mask.shape.len, mask.shape.coordsOf p = coords ∧ marker.get p = a ∧
        mask.data.get p = b ∧ kind.respects a b = false := by
  constructor
  · intro h
    obtain ⟨p, rfl⟩ := exists_coordsOf_eq h.mask_eq
    have hmarker := (get?_coordsOf (mask.withData marker) p).symm.trans h.marker_eq
    have hmask := (get?_coordsOf mask p).symm.trans h.mask_eq
    exact ⟨p, rfl, Option.some.inj hmarker, Option.some.inj hmask, h.wrong⟩
  · rintro ⟨p, rfl, rfl, rfl, hwrong⟩
    exact ⟨get?_coordsOf (mask.withData marker) p, get?_coordsOf mask p, hwrong⟩

theorem firstViolation_withData_iff {coords : List Nat} {a b : α} :
    (mask.withData marker).FirstViolation mask kind coords a b ↔
      ∃ p : Fin mask.shape.len, (mask.withData marker).violation? mask.data kind = some p ∧
        mask.shape.coordsOf p = coords ∧ marker.get p = a ∧ mask.data.get p = b := by
  simp only [violation?_eq_some_iff]
  constructor
  · intro h
    obtain ⟨p, rfl, rfl, rfl, hwrong⟩ := violatesAt_withData_iff.mp h.toViolatesAt
    refine ⟨p, ⟨hwrong, ?_⟩, rfl, rfl, rfl⟩
    intro q hq
    exact h.first _ (Shape.coordsOf_lt_iff.mpr hq) _ _ (get?_coordsOf (mask.withData marker) q)
      (get?_coordsOf mask q)
  · rintro ⟨p, ⟨hwrong, hbefore⟩, rfl, rfl, rfl⟩
    refine ⟨violatesAt_withData_iff.mpr ⟨p, rfl, rfl, rfl, hwrong⟩, ?_⟩
    intro earlier hlt c d hc hd
    obtain ⟨q, rfl⟩ := exists_coordsOf_eq hd
    have hmarker := (get?_coordsOf (mask.withData marker) q).symm.trans hc
    have hmask := (get?_coordsOf mask q).symm.trans hd
    rw [← Option.some.inj hmarker, ← Option.some.inj hmask]
    exact hbefore q (Shape.coordsOf_lt_iff.mp hlt)

theorem exists_firstViolation {coords : List Nat} {a b : α}
    (h : (mask.withData marker).ViolatesAt mask kind coords a b) :
    ∃ coords a b, (mask.withData marker).FirstViolation mask kind coords a b := by
  simp only [firstViolation_withData_iff]
  cases hviolation : (mask.withData marker).violation? mask.data kind with
  | some p => exact ⟨_, _, _, p, rfl, rfl, rfl, rfl⟩
  | none =>
      obtain ⟨p, _, rfl, rfl, hwrong⟩ := violatesAt_withData_iff.mp h
      unfold violation? withData at hviolation
      have hright := List.find?_eq_none.mp hviolation p (List.mem_finRange p)
      simp [hwrong] at hright

end Layout

variable {marker mask : Grid α} {kind : Kind} {check : Bool} {e : OperatorError α}

omit [Pixel α] in
theorem maskFor_of_dims_ne (hdims : marker.dims ≠ mask.dims) :
    marker.maskFor mask = .error (.shapeMismatch marker.dims mask.dims) :=
  dif_neg fun hshape => hdims (congrArg Shape.dims hshape)

theorem refused_shapeMismatch_iff :
    (∃ first second, Refused marker mask kind check (.shapeMismatch first second)) ↔
      marker.dims ≠ mask.dims := by
  constructor
  · rintro ⟨_, _, h⟩
    cases h with
    | shape hdims => exact hdims
  · intro hdims
    exact ⟨_, _, .shape hdims⟩

theorem refused_preconditionViolation_iff :
    (∃ coords a b, Refused marker mask kind check (.preconditionViolation coords a b)) ↔
      marker.dims = mask.dims ∧ check = true ∧
        ∃ coords a b, marker.ViolatesAt mask kind coords a b := by
  constructor
  · rintro ⟨coords, a, b, h⟩
    cases h with
    | violation hdims hcheck hfirst => exact ⟨hdims, hcheck, _, _, _, hfirst.toViolatesAt⟩
  · rintro ⟨hdims, hcheck, coords, a, b, h⟩
    obtain ⟨data, rfl⟩ := exists_eq_withData (Shape.ext_dims hdims)
    obtain ⟨_, _, _, hfirst⟩ := exists_firstViolation h
    exact ⟨_, _, _, .violation hdims hcheck hfirst⟩

/-- What is not refused has the layout of its mask, and respects it if that is checked. -/
theorem exists_withData_of_not_refused (h : ∀ e, ¬ Refused marker mask kind check e) :
    ∃ data, marker = mask.withData data ∧
      (check = true → ∀ p, kind.respects (data.get p) (mask.data.get p) = true) := by
  have hdims : marker.dims = mask.dims := by
    by_contra hne
    exact h _ (.shape hne)
  obtain ⟨data, rfl⟩ := exists_eq_withData (Shape.ext_dims hdims)
  refine ⟨data, rfl, ?_⟩
  intro hcheck p
  by_contra hwrong
  obtain ⟨_, _, _, hfirst⟩ := exists_firstViolation
    (violatesAt_withData_iff.mpr ⟨p, rfl, rfl, rfl, Bool.eq_false_iff.mpr hwrong⟩)
  exact h _ (.violation hdims hcheck hfirst)

theorem validateMarker_of_refused (h : Refused marker mask kind true e) :
    marker.validateMarker mask kind = .error e := by
  cases h with
  | shape hdims =>
      rw [validateMarker, maskFor_of_dims_ne hdims]
      rfl
  | violation hdims _ hfirst =>
      obtain ⟨data, rfl⟩ := exists_eq_withData (Shape.ext_dims hdims)
      obtain ⟨p, hviolation, rfl, rfl, rfl⟩ := firstViolation_withData_iff.mp hfirst
      rw [validateMarker, maskFor_withData]
      simp only [bind, Except.bind, hviolation]
      rfl

theorem validateMarker_of_not_refused (h : ∀ e, ¬ Refused marker mask kind true e) :
    marker.validateMarker mask kind = .ok () := by
  obtain ⟨data, rfl, hrespects⟩ := exists_withData_of_not_refused h
  exact validateMarker_withData (hrespects rfl)

variable {o : Options}

theorem reconstructInPlace_of_refused (h : Refused marker mask o.kind o.check e) :
    marker.reconstructInPlace mask o = (marker, .error e) := by
  have hresult : marker.reconstructWithStats mask o = .error e := by
    unfold reconstructWithStats
    cases hcheck : o.check with
    | true =>
        rw [hcheck] at h
        rw [validateMarker_of_refused h]
        rfl
    | false =>
        cases h with
        | shape hdims =>
            rw [maskFor_of_dims_ne hdims]
            rfl
        | violation _ hchecked _ => simp [hcheck] at hchecked
  rw [reconstructInPlace, hresult]

theorem reconstructInPlace_of_not_refused (h : ∀ e, ¬ Refused marker mask o.kind o.check e) :
    ∃ result stats, marker.reconstructInPlace mask o = (result, .ok stats) ∧
      result.dims = marker.dims := by
  obtain ⟨data, rfl, hrespects⟩ := exists_withData_of_not_refused h
  exact ⟨_, _, reconstructInPlace_withData hrespects, rfl⟩

theorem reconstructInPlace_eq_error_iff :
    (marker.reconstructInPlace mask o).2 = .error e ↔ Refused marker mask o.kind o.check e := by
  constructor
  · intro herror
    by_contra hnot
    by_cases hrefused : ∃ e', Refused marker mask o.kind o.check e'
    · obtain ⟨e', he'⟩ := hrefused
      rw [reconstructInPlace_of_refused he', Except.error.injEq] at herror
      exact hnot (herror ▸ he')
    · obtain ⟨_, _, hok, _⟩ := reconstructInPlace_of_not_refused (not_exists.mp hrefused)
      simp [hok] at herror
  · intro h
    rw [reconstructInPlace_of_refused h]

/-- The validation alone comes to the verdict of a reconstruction that checks. -/
theorem validateMarker_eq_verdict (marker mask : Grid α) (o : Options) :
    marker.validateMarker mask o.kind =
      (marker.reconstructInPlace mask (o.withPreconditionCheck true)).2.map fun _ => () := by
  by_cases hrefused : ∃ e, Refused marker mask o.kind true e
  · obtain ⟨e, h⟩ := hrefused
    rw [validateMarker_of_refused h,
      reconstructInPlace_of_refused (o := o.withPreconditionCheck true) h]
    rfl
  · have hnone := not_exists.mp hrefused
    obtain ⟨result, stats, hok, _⟩ :=
      reconstructInPlace_of_not_refused (o := o.withPreconditionCheck true) hnone
    rw [validateMarker_of_not_refused hnone, hok]
    rfl

/-! ## The verdict -/

/-- Reconstruction fails exactly if the shapes differ, or else if the values are checked and some
element lies on the wrong side of its mask. It then names the first such element in lexicographic
order, and the marker stays as it was; otherwise the shape stays. To validate a marker gives the
same verdict. -/
theorem reconstructInPlace_refusals (marker mask : Grid α) (o : Options) :
    let outcome := marker.reconstructInPlace mask o
    ((∃ first second, outcome.2 = .error (.shapeMismatch first second)) ↔
        marker.dims ≠ mask.dims) ∧
      ((∃ coords a b, outcome.2 = .error (.preconditionViolation coords a b)) ↔
        marker.dims = mask.dims ∧ o.check = true ∧
          ∃ coords a b, marker.ViolatesAt mask o.kind coords a b) ∧
      (∀ e, outcome.2 = .error e → outcome.1 = marker ∧
        (e = .shapeMismatch marker.dims mask.dims ∨
          ∃ coords a b, e = .preconditionViolation coords a b ∧
            marker.shape.contains coords = true ∧
              marker.FirstViolation mask o.kind coords a b)) ∧
      (∀ stats, outcome.2 = .ok stats → outcome.1.dims = marker.dims) ∧
      marker.validateMarker mask o.kind =
        (marker.reconstructInPlace mask (o.withPreconditionCheck true)).2.map fun _ => () := by
  intro outcome
  have hrefused (e : OperatorError α) :
      outcome.2 = .error e ↔ Refused marker mask o.kind o.check e := reconstructInPlace_eq_error_iff
  simp only [hrefused]
  refine ⟨refused_shapeMismatch_iff, refused_preconditionViolation_iff, ?_, ?_,
    validateMarker_eq_verdict marker mask o⟩
  · intro e h
    refine ⟨congrArg Prod.fst (reconstructInPlace_of_refused h), ?_⟩
    cases h with
    | shape hdims => exact .inl rfl
    | violation hdims hcheck hfirst =>
        obtain ⟨p, rfl⟩ := exists_coordsOf_eq hfirst.marker_eq
        exact .inr ⟨_, _, _, rfl, Shape.contains_coordsOf p.isLt, hfirst⟩
  · intro stats hok
    have hnone (e : OperatorError α) : ¬ Refused marker mask o.kind o.check e := by
      intro h
      rw [← hrefused, hok] at h
      cases h
    obtain ⟨result, stats', hrun, hdims⟩ := reconstructInPlace_of_not_refused hnone
    rw [show outcome = (result, .ok stats') from hrun]
    exact hdims

end Morphology.Grid
