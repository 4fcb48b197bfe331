import Mathlib.Data.List.Basic
import Mathlib.Order.Nat

/-!
# Cuts of ascending lists

A set of keys that is closed downwards cuts every ascending list in two. Positions in the list are
described by such sets: where a search for `k` ends, and where the step behind `k` ends.
-/

namespace Cursor
open Std

variable {K V : Type*} {cmp : K → K → Ordering} {P : K → Bool} {xs : List (K × V)}

/-- Ascending keys. -/
abbrev Ascending (cmp : K → K → Ordering) (xs : List (K × V)) : Prop :=
  xs.Pairwise fun a b => cmp a.1 b.1 = .lt

/-- Closed downwards. -/
def Down (cmp : K → K → Ordering) (P : K → Bool) : Prop :=
  ∀ a b, (cmp a b).isLE → P b = true → P a = true

/-- The number of entries with keys in `P`. -/
def cut (P : K → Bool) (xs : List (K × V)) : ℕ := xs.countP fun e => P e.1

def below (cmp : K → K → Ordering) (k a : K) : Bool := cmp a k = .lt

def upto (cmp : K → K → Ordering) (k a : K) : Bool := (cmp a k).isLE

theorem cut_le_length : cut P xs ≤ xs.length := List.countP_le_length

theorem lt_cut_iff (hxs : Ascending cmp xs) (hP : Down cmp P) {i : ℕ} (hi : i < xs.length) :
    i < cut P xs ↔ P xs[i].1 = true := by
  induction xs generalizing i with
  | nil => cases hi
  | cons e es ih =>
    obtain ⟨he, hes⟩ := List.pairwise_cons.mp hxs
    by_cases hPe : P e.1 = true
    · have hcut : cut P (e :: es) = cut P es + 1 := List.countP_cons_of_pos hPe
      rw [hcut]
      cases i with
      | zero => simp [hPe]
      | succ i => simpa using ih hes (Nat.lt_of_succ_lt_succ hi)
    · have hall : ∀ e' ∈ es, ¬ P e'.1 = true := by
        intro e' he' hPe'
        exact hPe (hP _ _ (Ordering.isLE_of_eq_lt (he e' he')) hPe')
      have hzero : cut P (e :: es) = 0 := by
        rw [cut, List.countP_eq_zero]
        exact List.forall_mem_cons.mpr ⟨hPe, hall⟩
      rw [hzero]
      have hnot : ¬ P (e :: es)[i].1 = true := by
        rcases List.mem_cons.mp (List.getElem_mem hi) with h | h
        · rwa [h]
        · exact hall _ h
      simp [hnot]

theorem findIdx_eq_cut (hxs : Ascending cmp xs) (hP : Down cmp P) :
    (xs.findIdx fun e => !P e.1) = cut P xs := by
  apply Nat.le_antisymm
  · by_contra hlt
    rw [Nat.not_le] at hlt
    have hlen := hlt.trans_le List.findIdx_le_length
    have := List.not_of_lt_findIdx hlt
    rw [Bool.not_eq_false'] at this
    exact absurd ((lt_cut_iff hxs hP hlen).mpr this) (Nat.lt_irrefl _)
  · by_contra hlt
    rw [Nat.not_le] at hlt
    have hlen := hlt.trans_le cut_le_length
    have hfound := List.findIdx_getElem (w := hlen)
    rw [(lt_cut_iff hxs hP hlen).mp hlt] at hfound
    cases hfound

/-- Where the elements that meet `p` are the last ones, the first of them is behind all others. -/
theorem lt_findIdx_iff {α : Type*} {p : α → Bool} {as : List α}
    (has : as.Pairwise fun a b => p a = true → p b = true) {i : ℕ} (hi : i < as.length) :
    i < as.findIdx p ↔ ¬ p as[i] = true := by
  constructor
  · intro hlt
    rw [List.not_of_lt_findIdx hlt]
    decide
  · intro hnot
    by_contra hle
    have hfound := List.findIdx_getElem (w := (Nat.le_of_not_lt hle).trans_lt hi)
    rcases Nat.lt_or_eq_of_le (Nat.le_of_not_lt hle) with hlt | heq
    · exact hnot (List.pairwise_iff_getElem.mp has _ i _ hi hlt hfound)
    · simp only [heq] at hfound
      exact hnot hfound

/-- Entries are in the order of their positions. -/
theorem lt_of_getElem_lt (hxs : Ascending cmp xs) {i j : ℕ} (hij : i < j) (hj : j < xs.length) :
    cmp xs[i].1 xs[j].1 = .lt :=
  List.pairwise_iff_getElem.mp hxs i j _ hj hij

/-- Without an entry of this key the two cuts are the same. -/
theorem cut_upto_eq_below {k : K} (hne : ∀ e ∈ xs, cmp e.1 k ≠ .eq) :
    cut (upto cmp k) xs = cut (below cmp k) xs := by
  rw [cut, cut]
  apply List.countP_congr
  intro e he
  have := hne e he
  rw [upto, below]
  cases h : cmp e.1 k <;> simp_all

section
variable [TransCmp cmp]

theorem down_below (k : K) : Down cmp (below cmp k) := by
  intro a b hab hb
  simp only [below, decide_eq_true_eq] at hb ⊢
  exact TransCmp.lt_of_isLE_of_lt hab hb

theorem down_upto (k : K) : Down cmp (upto cmp k) :=
  fun _ _ hab hb => TransCmp.isLE_trans hab hb

theorem isLE_of_getElem_le (hxs : Ascending cmp xs) {i j : ℕ} (hij : i ≤ j) (hj : j < xs.length) :
    (cmp xs[i].1 xs[j].1).isLE := by
  rcases Nat.lt_or_eq_of_le hij with h | h
  · exact Ordering.isLE_of_eq_lt (lt_of_getElem_lt hxs h hj)
  · subst h
    exact ReflCmp.isLE_rfl

theorem cut_below_getElem (hxs : Ascending cmp xs) {i : ℕ} (hi : i < xs.length) :
    cut (below cmp xs[i].1) xs = i := by
  have hlt (j : ℕ) (hj : j < xs.length) : j < cut (below cmp xs[i].1) xs ↔ j < i := by
    rw [lt_cut_iff hxs (down_below _) hj, below, decide_eq_true_eq]
    constructor
    · intro h
      by_contra hji
      exact absurd (isLE_of_getElem_le hxs (Nat.not_lt.mp hji) hj)
        (by rw [OrientedCmp.gt_of_lt h]; decide)
    · exact fun h => lt_of_getElem_lt hxs h hi
  have hle := @cut_le_length _ _ (below cmp xs[i].1) xs
  have hi' := hlt i hi
  by_contra hne
  rcases Nat.lt_or_gt_of_ne hne with h | h
  · exact absurd ((hlt _ (h.trans hi)).mpr h) (Nat.lt_irrefl _)
  · exact absurd (hi'.mp h) (Nat.lt_irrefl _)

theorem getElem?_cut_below (hxs : Ascending cmp xs) {e : K × V} (he : e ∈ xs) :
    xs[cut (below cmp e.1) xs]? = some e := by
  obtain ⟨i, hi, rfl⟩ := List.getElem_of_mem he
  rw [cut_below_getElem hxs hi, List.getElem?_eq_getElem hi]

/-- Behind an entry. -/
theorem cut_upto_getElem (hxs : Ascending cmp xs) {i : ℕ} (hi : i < xs.length) :
    cut (upto cmp xs[i].1) xs = i + 1 := by
  have hlt (j : ℕ) (hj : j < xs.length) : j < cut (upto cmp xs[i].1) xs ↔ j < i + 1 := by
    rw [lt_cut_iff hxs (down_upto _) hj, upto, Nat.lt_succ_iff]
    constructor
    · intro h
      by_contra hij
      have := lt_of_getElem_lt hxs (Nat.not_le.mp hij) hj
      rw [OrientedCmp.gt_of_lt this] at h
      cases h
    · exact fun h => isLE_of_getElem_le hxs h hi
  have hi' := (hlt i hi).mpr (Nat.lt_succ_self i)
  by_contra hne
  rcases Nat.lt_or_gt_of_ne hne with h | h
  · omega
  · have hlen := h.trans_le cut_le_length
    exact absurd ((hlt _ hlen).mp h) (Nat.lt_irrefl _)

end

theorem cut_congr {Q : K → Bool} (h : ∀ e ∈ xs, P e.1 = Q e.1) : cut P xs = cut Q xs :=
  List.countP_congr fun e he => by rw [h e he]

/-! ## Where the first and the last entry of several lists stand -/

section
variable [TransCmp cmp] {k : K}

/-- `k` is behind the cut, and none of the entries right behind the cut is smaller. -/
theorem eq_below_of_first (hxs : Ascending cmp xs) (hP : Down cmp P) (hk : P k = false)
    (hmin : ∀ e, xs[cut P xs]? = some e → (cmp k e.1).isLE) : ∀ e ∈ xs, P e.1 = below cmp k e.1 := by
  intro e he
  obtain ⟨i, hi, rfl⟩ := List.getElem_of_mem he
  rw [Bool.eq_iff_iff, below, decide_eq_true_eq]
  constructor
  · intro hPi
    by_contra hge
    have hle : (cmp k xs[i].1).isLE := by
      rw [@OrientedCmp.eq_swap _ cmp]
      cases h : cmp xs[i].1 k <;> simp_all
    rw [hP _ _ hle hPi] at hk
    cases hk
  · intro hlt
    by_contra hPi
    have hcut : cut P xs ≤ i := Nat.not_lt.mp (mt (lt_cut_iff hxs hP hi).mp hPi)
    have hle := hmin _ (List.getElem?_eq_getElem (hcut.trans_lt hi))
    have := TransCmp.isLE_trans hle (isLE_of_getElem_le hxs hcut hi)
    rw [OrientedCmp.gt_of_lt hlt] at this
    cases this

/-- In front of a cut, or nowhere. -/
def before (n c : ℕ) : ℕ := if c = 0 then n else c - 1

/-- `k` is in front of the cut, and none of the entries right in front of the cut is larger. -/
theorem eq_upto_of_last (hxs : Ascending cmp xs) (hP : Down cmp P) (hk : P k = true)
    (hmax : ∀ e, xs[before xs.length (cut P xs)]? = some e → (cmp e.1 k).isLE) :
    ∀ e ∈ xs, P e.1 = upto cmp k e.1 := by
  intro e he
  obtain ⟨i, hi, rfl⟩ := List.getElem_of_mem he
  rw [Bool.eq_iff_iff, upto]
  constructor
  · intro hPi
    have hcut := (lt_cut_iff hxs hP hi).mpr hPi
    have hlen : cut P xs - 1 < xs.length := by
      have := @cut_le_length _ _ P xs
      omega
    rw [before, if_neg (by omega)] at hmax
    have hle := hmax _ (List.getElem?_eq_getElem hlen)
    exact TransCmp.isLE_trans (isLE_of_getElem_le hxs (by omega) hlen) hle
  · exact fun hle => hP _ _ hle hk

end
end Cursor
