import Mathlib.Algebra.GroupWithZero.Nat
import Mathlib.Order.Interval.Finset.Nat

/-!
# Extents of addresses

Ranges of addresses by their start and their size: when one lies in another, when two share nothing,
and how much room those that share nothing take.
-/

structure Extent where
  start : ℕ
  size : ℕ
  deriving DecidableEq, Repr

namespace Extent

/-- The first address behind the extent. -/
def stop (e : Extent) : ℕ := e.start + e.size

/-- `a` lies in `b`. -/
def Within (a b : Extent) : Prop := b.start ≤ a.start ∧ a.stop ≤ b.stop

/-- `a` and `b` share no address. -/
def Apart (a b : Extent) : Prop := a.stop ≤ b.start ∨ b.stop ≤ a.start

instance (a b : Extent) : Decidable (a.Within b) := inferInstanceAs (Decidable (_ ∧ _))

instance (a b : Extent) : Decidable (a.Apart b) := inferInstanceAs (Decidable (_ ∨ _))

variable {a a' b b' c : Extent} {es : List Extent} {n : ℕ}

theorem Within.refl (a : Extent) : a.Within a := ⟨Nat.le_refl _, Nat.le_refl _⟩

theorem Within.trans (h : a.Within b) (h' : b.Within c) : a.Within c :=
  ⟨h'.1.trans h.1, h.2.trans h'.2⟩

theorem Within.size_le (h : a.Within b) : a.size ≤ b.size := by
  obtain ⟨hstart, hstop⟩ := h
  rw [stop, stop] at hstop
  omega

theorem Apart.symm (h : a.Apart b) : b.Apart a := Or.symm h

theorem Apart.mono (h : a.Apart b) (ha : a'.Within a) (hb : b'.Within b) : a'.Apart b' :=
  h.imp (fun hle => ha.2.trans (hle.trans hb.1)) fun hle => hb.2.trans (hle.trans ha.1)

/-- The addresses of extents that share none are as many as their sizes say. -/
theorem exists_card_eq_sum (h : es.Pairwise Apart) : ∃ addresses : Finset ℕ,
    addresses.card = (es.map size).sum ∧
      ∀ x, x ∈ addresses ↔ ∃ e ∈ es, x ∈ Finset.Ico e.start e.stop := by
  induction es with
  | nil => exact ⟨∅, rfl, by simp⟩
  | cons e es ih =>
    obtain ⟨he, hes⟩ := List.pairwise_cons.mp h
    obtain ⟨rest, hcard, hmem⟩ := ih hes
    have hdisjoint : Disjoint (Finset.Ico e.start e.stop) rest := by
      rw [Finset.disjoint_left]
      intro x hx hrest
      obtain ⟨e', he', hx'⟩ := (hmem x).mp hrest
      rw [Finset.mem_Ico] at hx hx'
      have := he e' he'
      rw [Apart] at this
      omega
    refine ⟨Finset.Ico e.start e.stop ∪ rest, ?_, fun x => ?_⟩
    · rw [Finset.card_union_of_disjoint hdisjoint, hcard, Nat.card_Ico, List.map_cons, List.sum_cons,
        stop, Nat.add_sub_cancel_left]
    · rw [Finset.mem_union, hmem, List.exists_mem_cons_iff]

/-- Extents that share no address and end at `n` or before it have room for `n` addresses. -/
theorem sum_size_le (h : es.Pairwise Apart) (hstop : ∀ e ∈ es, e.stop ≤ n) :
    (es.map size).sum ≤ n := by
  obtain ⟨addresses, hcard, hmem⟩ := exists_card_eq_sum h
  have hsub : addresses ⊆ Finset.range n := by
    intro x hx
    obtain ⟨e, he, hx⟩ := (hmem x).mp hx
    rw [Finset.mem_Ico] at hx
    exact Finset.mem_range.mpr (hx.2.trans_le (hstop e he))
  have hle := Finset.card_le_card hsub
  rwa [hcard, Finset.card_range] at hle

end Extent
