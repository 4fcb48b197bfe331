import Mathlib.Data.List.MinMax
import Mathlib.Data.Set.Basic

/-!
# Versioned lookup

A store holds elements with a key and a version number. A lookup of `k` at `s` asks for the element of
that key with the greatest version number up to `s`. A lookup in layers stops at the first layer that
has an answer, which is right when each layer is newer than those behind it.
-/

namespace Yubindb

variable {α K : Type*} (key : α → K) (num : α → Nat)

/-- The elements that a lookup can see. -/
def Visible (S : Set α) (k : K) (s : Nat) (a : α) : Prop := a ∈ S ∧ key a = k ∧ num a ≤ s

/-- `r` is the right answer of a lookup. -/
def IsNewest (S : Set α) (k : K) (s : Nat) : Option α → Prop
  | none => ∀ a, ¬ Visible key num S k s a
  | some a => Visible key num S k s a ∧ ∀ b, Visible key num S k s b → num b ≤ num a

/-- Every element of `S` is newer than every element of `T`. -/
def Newer (S T : Set α) : Prop := ∀ a ∈ S, ∀ b ∈ T, num b < num a

variable {key num} {S T : Set α} {k : K} {s : Nat} {a : α} {r r' : Option α}

/-- An answer from the first of two layers, which is newer as far as the key goes. -/
theorem IsNewest.union_some (hnewer : ∀ a ∈ S, ∀ b ∈ T, key a = k → key b = k → num b < num a)
    (h : IsNewest key num S k s (some a)) : IsNewest key num (S ∪ T) k s (some a) := by
  obtain ⟨⟨ha, hkey, hle⟩, hmax⟩ := h
  refine ⟨⟨.inl ha, hkey, hle⟩, ?_⟩
  rintro b ⟨hb | hb, hbkey, hble⟩
  · exact hmax b ⟨hb, hbkey, hble⟩
  · exact (hnewer a ha b hb hkey hbkey).le

/-- The first of two layers has no answer. -/
theorem IsNewest.union_none (h : IsNewest key num S k s none) (h' : IsNewest key num T k s r) :
    IsNewest key num (S ∪ T) k s r := by
  cases r with
  | none =>
    rintro b ⟨hb | hb, hbkey, hble⟩
    · exact h b ⟨hb, hbkey, hble⟩
    · exact h' b ⟨hb, hbkey, hble⟩
  | some a =>
    obtain ⟨⟨ha, hkey, hle⟩, hmax⟩ := h'
    refine ⟨⟨.inr ha, hkey, hle⟩, ?_⟩
    rintro b ⟨hb | hb, hbkey, hble⟩
    · exact absurd ⟨hb, hbkey, hble⟩ (h b)
    · exact hmax b ⟨hb, hbkey, hble⟩

/-- A lookup in two layers. -/
theorem IsNewest.layers (hnewer : Newer num S T) (h : IsNewest key num S k s r)
    (h' : IsNewest key num T k s r') : IsNewest key num (S ∪ T) k s (r.or r') := by
  cases r with
  | some a => exact h.union_some fun a ha b hb _ _ => hnewer a ha b hb
  | none =>
    rw [Option.none_or]
    exact h.union_none h'

/-- Only what a lookup can see matters. -/
theorem isNewest_congr_visible (h : ∀ a, Visible key num S k s a ↔ Visible key num T k s a) :
    IsNewest key num S k s r ↔ IsNewest key num T k s r := by
  cases r with
  | none => simp only [IsNewest, h]
  | some a => simp only [IsNewest, h]

/-- Only the elements up to `s` matter. -/
theorem isNewest_congr (h : ∀ a, num a ≤ s → (a ∈ S ↔ a ∈ T)) :
    IsNewest key num S k s r ↔ IsNewest key num T k s r := by
  apply isNewest_congr_visible
  intro a
  constructor
  · rintro ⟨ha, hkey, hle⟩
    exact ⟨(h a hle).mp ha, hkey, hle⟩
  · rintro ⟨ha, hkey, hle⟩
    exact ⟨(h a hle).mpr ha, hkey, hle⟩

/-- With distinct version numbers for each key there is one answer. -/
theorem IsNewest.unique_at (hinj : ∀ a ∈ S, ∀ b ∈ S, key a = key b → num a = num b → a = b)
    (h : IsNewest key num S k s r) (h' : IsNewest key num S k s r') : r = r' := by
  cases r with
  | none =>
    cases r' with
    | none => rfl
    | some b => exact absurd h'.1 (h b)
  | some a =>
    cases r' with
    | none => exact absurd h.1 (h' a)
    | some b =>
      have hnum := Nat.le_antisymm (h'.2 a h.1) (h.2 b h'.1)
      rw [hinj a h.1.1 b h'.1.1 (h.1.2.1.trans h'.1.2.1.symm) hnum]

/-- With pairwise distinct version numbers there is one answer. -/
theorem IsNewest.unique (hinj : ∀ a ∈ S, ∀ b ∈ S, num a = num b → a = b)
    (h : IsNewest key num S k s r) (h' : IsNewest key num S k s r') : r = r' :=
  h.unique_at (fun a ha b hb _ => hinj a ha b hb) h'

/-- A lookup in a list. -/
def newest [DecidableEq K] (key : α → K) (num : α → Nat) (as : List α) (k : K) (s : Nat) : Option α :=
  (as.filter fun a => key a = k ∧ num a ≤ s).argmax num

theorem isNewest_newest [DecidableEq K] (as : List α) (k : K) (s : Nat) :
    IsNewest key num {a | a ∈ as} k s (newest key num as k s) := by
  have hmem (a : α) : a ∈ as.filter (fun a => key a = k ∧ num a ≤ s) ↔
      Visible key num {a | a ∈ as} k s a := by
    rw [List.mem_filter, decide_eq_true_iff]
    rfl
  cases h : newest key num as k s with
  | none =>
    rw [newest, List.argmax_eq_none] at h
    intro a ha
    have := (hmem a).mpr ha
    rw [h] at this
    cases this
  | some a =>
    exact ⟨(hmem a).mp (List.argmax_mem h), fun b hb => List.le_of_mem_argmax ((hmem b).mpr hb) h⟩

end Yubindb
