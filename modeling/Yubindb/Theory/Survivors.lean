import Yubindb.Theory.Versioned

/-!
# Leaving out versions that nobody reads

A list holds the versions of its keys one key after another, the newest version of a key first. A
version is shadowed when the one in front of it is of its key and already old enough for every reader;
a dead version may go when it is old enough itself and nothing lies below. Readers at `small` and
later see the same.
-/

namespace Yubindb

variable {α K : Type*} [DecidableEq K] (key : α → K) (num : α → Nat) (dead : α → Bool)

/-- Key after key, and each key's versions from the newest to the oldest. -/
def Grouped (r : K → K → Prop) (as : List α) : Prop :=
  as.Pairwise fun a b => r (key a) (key b) ∨ key a = key b ∧ num b ≤ num a

/-- The version is one that a reader of `k` at `s` can see. -/
def sees (k : K) (s : Nat) (a : α) : Bool := key a = k ∧ num a ≤ s

/-- The version in front is of the key, and every reader sees it. -/
def shadows (small : Nat) (k : K) (prev : Option α) : Bool :=
  prev.any fun p => key p = k ∧ num p ≤ small

/-- The version goes; `base i k` is the answer to whether nothing of `k` lies below, for the version
at `i`. -/
def outdated (small : Nat) (base : Nat → K → Bool) (i : Nat) (prev : Option α) (a : α) : Bool :=
  shadows key num small (key a) prev || (dead a && num a ≤ small && base i (key a))

/-- What is left of the list. -/
def survivors (small : Nat) (base : Nat → K → Bool) : Nat → Option α → List α → List α
  | _, _, [] => []
  | i, prev, a :: as =>
    if outdated key num dead small base i prev a then survivors small base (i + 1) (some a) as
    else a :: survivors small base (i + 1) (some a) as

variable {key num dead} {r : K → K → Prop} {small s i : Nat} {base : Nat → K → Bool} {k : K}
  {prev : Option α} {a : α} {as : List α}

theorem shadows_some {p : α} :
    shadows key num small k (some p) = true ↔ key p = k ∧ num p ≤ small := by
  simp [shadows]

theorem sees_eq_true : sees key num k s a = true ↔ key a = k ∧ num a ≤ s := decide_eq_true_iff

/-- The first version that a reader sees is the newest one. -/
theorem newest_eq_find? (h : Grouped key num r as) (hirrefl : ∀ k, ¬ r k k) (k : K) (s : Nat) :
    newest key num as k s = as.find? (sees key num k s) := by
  rw [← List.head?_filter]
  cases hfilter : as.filter (sees key num k s) with
  | nil =>
    rw [List.head?_nil, newest, List.argmax_eq_none]
    exact hfilter
  | cons a bs =>
    have hgrouped : Grouped key num r (a :: bs) := hfilter ▸ h.filter _
    have hmem (b : α) (hb : b ∈ a :: bs) : key b = k :=
      (sees_eq_true.mp (List.mem_filter.mp (hfilter ▸ hb)).2).1
    have hle : ∀ b ∈ bs, num b ≤ num a := by
      intro b hb
      rcases (List.pairwise_cons.mp hgrouped).1 b hb with hr | ⟨-, hle⟩
      · rw [hmem a List.mem_cons_self, hmem b (List.mem_cons_of_mem _ hb)] at hr
        exact absurd hr (hirrefl k)
      · exact hle
    have hmax : newest key num as k s = (a :: bs).argmax num := congrArg _ hfilter
    rw [hmax, List.head?_cons, List.argmax_cons]
    cases harg : bs.argmax num with
    | none => rfl
    | some c => exact if_neg (Nat.not_lt.mpr (hle c (List.argmax_mem harg)))

theorem survivors_sublist : (survivors key num dead small base i prev as).Sublist as := by
  induction as generalizing i prev with
  | nil => exact List.Sublist.refl _
  | cons b bs ih =>
    rw [survivors]
    split
    · exact ih.cons b
    · exact ih.cons_cons b

theorem mem_survivors (h : a ∈ survivors key num dead small base i prev as) : a ∈ as :=
  survivors_sublist.subset h

section Order
variable (hirrefl : ∀ k, ¬ r k k) (htrans : ∀ {k k' k''}, r k k' → r k' k'' → r k k'')
include hirrefl htrans

omit [DecidableEq K] in
/-- A key does not come back behind another one. -/
theorem key_ne_of_grouped {b : α} (h : Grouped key num r (a :: as)) (hne : key a ≠ key b)
    (hr : r (key b) (key a)) {c : α} (hc : c ∈ as) : key c ≠ key b := by
  rintro heq
  rcases (List.pairwise_cons.mp h).1 c hc with hac | ⟨hac, -⟩
  · exact hirrefl _ (heq ▸ htrans hr hac)
  · exact hne (hac.trans heq)

/-- Behind a version that every reader sees, nothing of its key is left. -/
theorem key_ne_of_shadows {p : α} (h : Grouped key num r (p :: as)) (hp : num p ≤ small)
    (ha : a ∈ survivors key num dead small base i (some p) as) : key a ≠ key p := by
  induction as generalizing i p with
  | nil => cases ha
  | cons b bs ih =>
    obtain ⟨hpb, hbs⟩ := List.pairwise_cons.mp h
    rcases hpb b List.mem_cons_self with hr | ⟨heq, hle⟩
    · have hne : key b ≠ key p := fun heq => hirrefl _ (heq ▸ hr)
      rcases List.mem_cons.mp (mem_survivors ha) with rfl | hmem
      · exact hne
      · exact key_ne_of_grouped hirrefl htrans hbs hne hr hmem
    · have hdrop : outdated key num dead small base i (some p) b = true := by
        rw [outdated, shadows_some.mpr ⟨heq, hp⟩, Bool.true_or]
      rw [survivors, if_pos hdrop] at ha
      exact heq ▸ ih hbs (hle.trans hp) ha

/-- A reader at `small` or later finds the same version as before, or it found a dead one and finds
none now, where nothing lies below. -/
theorem find?_survivors (hs : small ≤ s) (h : Grouped key num r as)
    (hprev : shadows key num small k prev = false) :
    (survivors key num dead small base i prev as).find? (sees key num k s) =
        as.find? (sees key num k s) ∨
      (survivors key num dead small base i prev as).find? (sees key num k s) = none ∧
        ∃ a ∈ as.find? (sees key num k s), dead a = true ∧ ∃ j, base j k = true := by
  induction as generalizing i prev with
  | nil => exact .inl rfl
  | cons a as ih =>
    have has : Grouped key num r as := (List.pairwise_cons.mp h).2
    rw [survivors]
    by_cases hkey : key a = k
    · subst hkey
      by_cases hsmall : num a ≤ small
      · have hsees : sees key num (key a) s a = true := sees_eq_true.mpr ⟨rfl, hsmall.trans hs⟩
        rw [List.find?_cons_of_pos hsees]
        split
        · next hdrop =>
          -- not shadowed, so it is dead, and what is left has nothing of its key
          rw [outdated, hprev, Bool.false_or, Bool.and_eq_true, Bool.and_eq_true] at hdrop
          obtain ⟨⟨hdead, -⟩, hbase⟩ := hdrop
          refine .inr ⟨List.find?_eq_none.mpr fun b hb hseen => ?_, a, rfl, hdead, i, hbase⟩
          exact key_ne_of_shadows hirrefl htrans h hsmall hb (sees_eq_true.mp hseen).1
        · exact .inl (List.find?_cons_of_pos hsees)
      · have hdrop : outdated key num dead small base i prev a = false := by
          rw [outdated, hprev, decide_eq_false hsmall]
          simp
        have hnext : shadows key num small (key a) (some a) = false := by
          simp [shadows, hsmall]
        rw [if_neg (by simp [hdrop]), List.find?_cons, List.find?_cons]
        cases sees key num (key a) s a with
        | true => exact .inl rfl
        | false => exact ih has hnext
    · have hnot : ¬ sees key num k s a = true := fun hseen => hkey (sees_eq_true.mp hseen).1
      have hnext : shadows key num small k (some a) = false := by
        simp [shadows, hkey]
      rw [List.find?_cons_of_neg hnot]
      split
      · exact ih has hnext
      · rw [List.find?_cons_of_neg hnot]
        exact ih has hnext

end Order

end Yubindb
