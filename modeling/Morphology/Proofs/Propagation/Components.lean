import Mathlib.Data.Set.Finite.Lemmas
import Morphology.Proofs.Propagation.Reach

/-! Components: the elements that neighbors inside a set join to one another, along paths that stay
in the set. A threshold reaches the components of what the mask lets pass, each from any source
inside it. -/

namespace Morphology

variable {n : Nat}

/-- The second element lies in the first one's component of a set. An element outside the set has
no component. -/
inductive Linked (adjacent : Fin n → Fin n → Prop) (S : Set (Fin n)) (p : Fin n) :
    Fin n → Prop where
  | self (hp : p ∈ S) : Linked adjacent S p p
  | step {q r} (h : Linked adjacent S p q) (hqr : adjacent q r) (hr : r ∈ S) :
      Linked adjacent S p r

variable {adjacent : Fin n → Fin n → Prop} {S T : Set (Fin n)} {p q r : Fin n}

theorem Linked.mem_left (h : Linked adjacent S p q) : p ∈ S := by
  induction h with
  | self hp => exact hp
  | step _ _ _ ih => exact ih

theorem Linked.mem_right (h : Linked adjacent S p q) : q ∈ S := by
  cases h with
  | self hp => exact hp
  | step _ _ hq => exact hq

theorem Linked.trans (hpq : Linked adjacent S p q) (hqr : Linked adjacent S q r) :
    Linked adjacent S p r := by
  induction hqr with
  | self _ => exact hpq
  | step _ hadj hr ih => exact .step ih hadj hr

theorem Linked.symm (hsymm : ∀ x y, adjacent x y → adjacent y x) (h : Linked adjacent S p q) :
    Linked adjacent S q p := by
  induction h with
  | self hp => exact .self hp
  | @step q r hpq hqr hr ih =>
      have hback : Linked adjacent S r q := .step (.self hr) (hsymm q r hqr) hpq.mem_right
      exact hback.trans ih

theorem Linked.mono (h : Linked adjacent S p q) (hST : S ⊆ T) : Linked adjacent T p q := by
  induction h with
  | self hp => exact .self (hST hp)
  | step _ hqr hr ih => exact .step ih hqr (hST hr)

/-- A component lies in every set that contains its first element and from which no neighbor inside
the component's set leads out. -/
theorem Linked.mem_of_closed (h : Linked adjacent S p q) (hp : p ∈ T)
    (hclosed : ∀ x ∈ T, ∀ y ∈ S, adjacent x y → y ∈ T) : q ∈ T := by
  induction h with
  | self _ => exact hp
  | @step q r _ hqr hr ih => exact hclosed q ih r hr hqr

theorem Linked.of_component (h : Linked adjacent S p q)
    (hT : ∀ x, Linked adjacent S p x → x ∈ T) : Linked adjacent T p q := by
  induction h with
  | self hp => exact .self (hT p (.self hp))
  | @step q r hpq hqr hr ih => exact .step ih hqr (hT r (.step hpq hqr hr))

theorem exists_highest (adjacent : Fin n → Fin n → Prop) (value : Fin n → Int) (hp : p ∈ S) :
    ∃ m, Linked adjacent S p m ∧ ∀ x, Linked adjacent S p x → value x ≤ value m :=
  Set.exists_max_image {x | Linked adjacent S p x} value (Set.toFinite _) ⟨p, .self hp⟩

theorem reached_iff_exists_linked {mask marker : Fin n → Int} {t : Int} :
    Reached adjacent mask marker t p ↔
      ∃ q, t ≤ marker q ∧ Linked adjacent {x | t ≤ mask x} q p := by
  constructor
  · intro h
    induction h with
    | @source p hmarker hmask => exact ⟨p, hmarker, .self hmask⟩
    | step _ hpq hmask ih =>
        obtain ⟨q, hmarker, hlinked⟩ := ih
        exact ⟨q, hmarker, .step hlinked hpq hmask⟩
  · intro hexists
    obtain ⟨q, hmarker, hlinked⟩ := hexists
    induction hlinked with
    | self hq => exact .source hmarker hq
    | step _ hpq hr ih => exact .step ih hpq hr

theorem linked_iff_exists_path :
    Linked adjacent S p q ↔ ∃ path, IsPath adjacent p q path ∧ ∀ x ∈ path, x ∈ S := by
  constructor
  · intro h
    induction h with
    | self hp => exact ⟨[p], .start, by simpa using hp⟩
    | @step q r _ hqr hr ih =>
        obtain ⟨path, hpath, hall⟩ := ih
        refine ⟨path ++ [r], .extend hpath hqr, ?_⟩
        intro x hx
        rcases List.mem_append.mp hx with hx | hx
        · exact hall x hx
        · rw [List.mem_singleton.mp hx]
          exact hr
  · intro hexists
    obtain ⟨path, hpath, hall⟩ := hexists
    induction hpath with
    | start => exact .self (hall p (by simp))
    | extend _ hqr ih => exact .step (ih fun x hx => hall x (by simp [hx])) hqr (hall _ (by simp))

/-- A threshold reaches an element exactly along a path whose masks all let it pass. -/
theorem reached_iff_exists_path {mask marker : Fin n → Int} {t : Int} :
    Reached adjacent mask marker t p ↔
      ∃ q path, IsPath adjacent q p path ∧ t ≤ marker q ∧ ∀ x ∈ path, t ≤ mask x := by
  rw [reached_iff_exists_linked]
  refine exists_congr fun q => ?_
  rw [linked_iff_exists_path, ← exists_and_left]
  exact exists_congr fun path => and_left_comm

end Morphology
