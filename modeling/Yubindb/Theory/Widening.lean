import Mathlib.Data.List.Basic

/-!
# Widening

A range is widened by the items that it meets, in any order and as often as one likes. An item is
reached when one of the ranges that come of this meets it. Where the ranges are ordered, it is enough
to find one that no item widens any more.
-/

namespace Widening

variable {R F : Type*} {meets : R → F → Prop} {widen : R → F → R} {items : List F} {r s t : R} {f : F}

/-- The ranges that widening by the items leads to. -/
inductive Widened (meets : R → F → Prop) (widen : R → F → R) (items : List F) (r : R) : R → Prop
  | refl : Widened meets widen items r r
  | widen {s : R} {f : F} (h : Widened meets widen items r s) (hf : f ∈ items) (hmeets : meets s f) :
    Widened meets widen items r (widen s f)

/-- The item meets one of these ranges. -/
def Reached (meets : R → F → Prop) (widen : R → F → R) (items : List F) (r : R) (f : F) : Prop :=
  f ∈ items ∧ ∃ s, Widened meets widen items r s ∧ meets s f

theorem Widened.trans (h : Widened meets widen items r s) (h' : Widened meets widen items s t) :
    Widened meets widen items r t := by
  induction h' with
  | refl => exact h
  | widen _ hf hmeets ih => exact ih.widen hf hmeets

theorem Widened.single (hf : f ∈ items) (hmeets : meets r f) :
    Widened meets widen items r (widen r f) :=
  Widened.refl.widen hf hmeets

theorem reached_of_meets (hf : f ∈ items) (hmeets : meets r f) : Reached meets widen items r f :=
  ⟨hf, r, .refl, hmeets⟩

/-! ## Ordered ranges -/

/-- No item that the range meets widens it. -/
def Closed (meets : R → F → Prop) (widen : R → F → R) (items : List F) (r : R) : Prop :=
  ∀ f ∈ items, meets r f → widen r f = r

/-- Wider ranges meet more, and stay wider. -/
structure Increasing (le : R → R → Prop) (meets : R → F → Prop) (widen : R → F → R) : Prop where
  refl : ∀ r, le r r
  trans : ∀ {r s t}, le r s → le s t → le r t
  le_widen : ∀ r f, le r (widen r f)
  meets : ∀ {r s f}, le r s → meets r f → meets s f
  widen : ∀ {r s} f, le r s → le (widen r f) (widen s f)

section
variable {le : R → R → Prop} (hincr : Increasing le meets widen)
include hincr

theorem Widened.is_wider (h : Widened meets widen items r s) : le r s := by
  induction h with
  | refl => exact hincr.refl r
  | widen _ _ _ ih => exact hincr.trans ih (hincr.le_widen _ _)

/-- A closed range bounds all that a narrower one can be widened to. -/
theorem Widened.le_of_closed (hclosed : Closed meets widen items t) (hle : le r t)
    (h : Widened meets widen items r s) : le s t := by
  induction h with
  | refl => exact hle
  | @widen s f _ hf hmeets ih =>
    have hstep : le (widen s f) (widen t f) := hincr.widen f ih
    rwa [hclosed f hf (hincr.meets ih hmeets)] at hstep

/-- What is reached is what the closed range meets. -/
theorem reached_iff_of_closed (h : Widened meets widen items r t)
    (hclosed : Closed meets widen items t) (hf : f ∈ items) :
    Reached meets widen items r f ↔ meets t f := by
  constructor
  · rintro ⟨-, s, hs, hmeets⟩
    exact hincr.meets (hs.le_of_closed hincr hclosed (h.is_wider hincr)) hmeets
  · intro hmeets
    exact ⟨hf, t, h, hmeets⟩

end

end Widening
