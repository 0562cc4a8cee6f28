import Mathlib.Logic.Function.Basic
import Mathlib.Order.MinMax

/-! What a marker reaches under a mask, threshold by threshold. Two markers that reach the same are
told apart by no propagation, and a stable marker already holds all that it reaches. -/

namespace Morphology

variable {n : Nat} {adjacent : Fin n → Fin n → Prop} {mask marker : Fin n → Int}

/-- A threshold spreads from marker values at least as high, through neighbors whose mask lets it
pass. -/
inductive Reached (adjacent : Fin n → Fin n → Prop) (mask marker : Fin n → Int) (t : Int) :
    Fin n → Prop where
  | source {p} (hmarker : t ≤ marker p) (hmask : t ≤ mask p) : Reached adjacent mask marker t p
  | step {p q} (h : Reached adjacent mask marker t p) (hpq : adjacent p q) (hmask : t ≤ mask q) :
      Reached adjacent mask marker t q

theorem Reached.le_mask {t : Int} {p : Fin n} (h : Reached adjacent mask marker t p) :
    t ≤ mask p := by
  cases h with
  | source _ hmask => exact hmask
  | step _ _ hmask => exact hmask

theorem Reached.of_sources {other : Fin n → Int} {t : Int} {p : Fin n}
    (h : Reached adjacent mask marker t p)
    (hsources : ∀ q, t ≤ marker q → t ≤ mask q → Reached adjacent mask other t q) :
    Reached adjacent mask other t p := by
  induction h with
  | source hmarker hmask => exact hsources _ hmarker hmask
  | step _ hpq hmask ih => exact .step ih hpq hmask

theorem Reached.mono {adjacent' : Fin n → Fin n → Prop} {mask' marker' : Fin n → Int} {t : Int}
    {p : Fin n} (h : Reached adjacent mask marker t p)
    (hadj : ∀ p q, adjacent p q → adjacent' p q) (hmask : ∀ p, mask p ≤ mask' p)
    (hmarker : ∀ p, marker p ≤ marker' p) : Reached adjacent' mask' marker' t p := by
  induction h with
  | @source p ht hpass => exact .source (ht.trans (hmarker p)) (hpass.trans (hmask p))
  | @step p q _ hpq hpass ih => exact .step ih (hadj p q hpq) (hpass.trans (hmask q))

/-- Two markers together reach what one of them reaches: no value stops another on its way. -/
theorem reached_max_iff {first second : Fin n → Int} {t : Int} {p : Fin n} :
    Reached adjacent mask (fun q => max (first q) (second q)) t p ↔
      Reached adjacent mask first t p ∨ Reached adjacent mask second t p := by
  constructor
  · intro h
    induction h with
    | source hmarker hmask =>
        rcases le_max_iff.mp hmarker with hfirst | hsecond
        · exact .inl (.source hfirst hmask)
        · exact .inr (.source hsecond hmask)
    | step _ hpq hmask ih =>
        rcases ih with hfirst | hsecond
        · exact .inl (hfirst.step hpq hmask)
        · exact .inr (hsecond.step hpq hmask)
  · intro h
    rcases h with hfirst | hsecond
    · exact hfirst.mono (fun _ _ => id) (fun _ => le_rfl) (fun _ => le_max_left _ _)
    · exact hsecond.mono (fun _ _ => id) (fun _ => le_rfl) (fun _ => le_max_right _ _)

/-- Writing one element leaves the reach as it was if the mask does not hold the new value below
the old one, and the old marker already reached the element at every height that it gains. -/
theorem reached_update_iff {p : Fin n} {value : Int} (hkept : min (marker p) (mask p) ≤ value)
    (hsound : ∀ t, t ≤ value → t ≤ mask p → Reached adjacent mask marker t p) (t : Int)
    (q : Fin n) :
    Reached adjacent mask (Function.update marker p value) t q ↔
      Reached adjacent mask marker t q := by
  constructor
  · intro h
    apply h.of_sources
    intro q hmarker hmask
    by_cases hq : q = p
    · subst hq
      rw [Function.update_self] at hmarker
      exact hsound t hmarker hmask
    · rw [Function.update_of_ne hq] at hmarker
      exact .source hmarker hmask
  · intro h
    apply h.of_sources
    intro q hmarker hmask
    apply Reached.source _ hmask
    by_cases hq : q = p
    · subst hq
      rw [Function.update_self]
      exact (le_min hmarker hmask).trans hkept
    · rwa [Function.update_of_ne hq]

theorem reached_comp_iff {m : Nat} {source : Fin m → Fin n} {adjacent' : Fin m → Fin m → Prop}
    (hsource : Function.Surjective source)
    (hadj : ∀ p q, adjacent' p q ↔ adjacent (source p) (source q)) {t : Int} {p : Fin m} :
    Reached adjacent' (fun q => mask (source q)) (fun q => marker (source q)) t p ↔
      Reached adjacent mask marker t (source p) := by
  constructor
  · intro h
    induction h with
    | source hmarker hmask => exact .source hmarker hmask
    | @step p q _ hpq hmask ih => exact .step ih ((hadj p q).mp hpq) hmask
  · intro h
    -- The induction passes through elements, and each of them has a place that it came to.
    generalize hq : source p = q at h
    induction h generalizing p with
    | source hmarker hmask =>
        subst hq
        exact .source hmarker hmask
    | @step r q _ hrq hmask ih =>
        subst hq
        rcases hsource r with ⟨r', rfl⟩
        exact .step (ih rfl) ((hadj r' p).mpr hrq) hmask

def Stable (adjacent : Fin n → Fin n → Prop) (mask marker : Fin n → Int) : Prop :=
  ∀ p q, adjacent p q → min (marker p) (mask q) ≤ marker q

theorem Stable.le_iff_reached (h : Stable adjacent mask marker)
    (hmask : ∀ p, marker p ≤ mask p) {t : Int} {p : Fin n} :
    t ≤ marker p ↔ Reached adjacent mask marker t p := by
  constructor
  · intro ht
    exact .source ht (ht.trans (hmask p))
  · intro hr
    induction hr with
    | source hmarker _ => exact hmarker
    | @step p q _ hpq ht ih => exact (le_min ih ht).trans (h p q hpq)

theorem stable_of_le_iff_reached {result : Fin n → Int}
    (h : ∀ t p, t ≤ result p ↔ Reached adjacent mask marker t p) :
    Stable adjacent mask result := by
  intro p q hpq
  have hp := (h _ p).mp (min_le_left (result p) (mask q))
  exact (h _ q).mpr (hp.step hpq (min_le_right _ _))

section Values

variable {β : Type} {value image : β → Int} {masks markers results : Fin n → β}

theorem Reached.map (himage : ∀ a b, value a ≤ value b → image a ≤ image b) {a : β} {t : Int}
    {p : Fin n} (ht : t ≤ image a)
    (h : Reached adjacent (fun q => value (masks q)) (fun q => value (markers q)) (value a) p) :
    Reached adjacent (fun q => image (masks q)) (fun q => image (markers q)) t p := by
  induction h with
  | source hmarker hmask =>
      exact .source (ht.trans (himage _ _ hmarker)) (ht.trans (himage _ _ hmask))
  | step _ hpq hmask ih => exact .step ih hpq (ht.trans (himage _ _ hmask))

/-- The images of what a marker reaches are what its image reaches, even where different values have
one image. -/
theorem le_image_iff_reached (himage : ∀ a b, value a ≤ value b → image a ≤ image b)
    (h : ∀ t p, t ≤ value (results p) ↔
      Reached adjacent (fun q => value (masks q)) (fun q => value (markers q)) t p)
    {t : Int} {p : Fin n} :
    t ≤ image (results p) ↔
      Reached adjacent (fun q => image (masks q)) (fun q => image (markers q)) t p := by
  have hmin {a b c : β} (hle : min (value a) (value b) ≤ value c) :
      min (image a) (image b) ≤ image c := by
    rcases min_le_iff.mp hle with ha | hb
    · exact (min_le_left _ _).trans (himage _ _ ha)
    · exact (min_le_right _ _).trans (himage _ _ hb)
  constructor
  · intro ht
    exact ((h _ p).mp le_rfl).map himage ht
  · intro hr
    induction hr with
    | @source p hmarker hmask =>
        have hkept : min (value (markers p)) (value (masks p)) ≤ value (results p) :=
          (h _ p).mpr (.source (min_le_left _ _) (min_le_right _ _))
        exact (le_min hmarker hmask).trans (hmin hkept)
    | @step p q _ hpq hmask ih =>
        have hstable := stable_of_le_iff_reached h
        exact (le_min ih hmask).trans (hmin (hstable p q hpq))

end Values

inductive IsPath (adjacent : Fin n → Fin n → Prop) (q : Fin n) : Fin n → List (Fin n) → Prop where
  | start : IsPath adjacent q q [q]
  | extend {p r path} (h : IsPath adjacent q p path) (hpr : adjacent p r) :
      IsPath adjacent q r (path ++ [r])

end Morphology
