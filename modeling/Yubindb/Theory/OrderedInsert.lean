import Mathlib.Data.List.Pairwise
import Mathlib.Data.List.Sort
import Yubindb.Theory.SortedSet

/-!
# Insertion at the upper bound

`insertUpper cmp a l` puts `a` in front of the first element of `l` above it. Elements that the
comparison tells apart may be inserted in any order, whatever the list.
-/

open Std

variable {α : Type*} {cmp : α → α → Ordering}

/-- In front of the first element above `a`. -/
def insertUpper (cmp : α → α → Ordering) (a : α) (l : List α) : List α :=
  l.orderedInsert (cmp · · = .lt) a

theorem mem_insertUpper {a b : α} {l : List α} : b ∈ insertUpper cmp a l ↔ b = a ∨ b ∈ l :=
  List.mem_orderedInsert _

theorem insertUpper_cons_of_lt {a b : α} (l : List α) (h : cmp a b = .lt) :
    insertUpper cmp a (b :: l) = a :: b :: l := List.orderedInsert_cons_of_le _ _ h

theorem insertUpper_cons_of_not_lt {a b : α} (l : List α) (h : ¬ cmp a b = .lt) :
    insertUpper cmp a (b :: l) = b :: insertUpper cmp a l := List.orderedInsert_of_not_le _ _ h

/-- What `a` is not below stays in front of it. -/
theorem insertUpper_append {a : α} {l : List α} (h : ∀ b ∈ l, ¬ cmp a b = .lt) (l' : List α) :
    insertUpper cmp a (l ++ l') = l ++ insertUpper cmp a l' := by
  induction l with
  | nil => rfl
  | cons b l ih =>
    obtain ⟨hb, hl⟩ := List.forall_mem_cons.mp h
    rw [List.cons_append, insertUpper_cons_of_not_lt _ hb, ih hl, List.cons_append]

/-- The elements of a list inserted one after another. -/
def insertAll (cmp : α → α → Ordering) (l : List α) (as : List α) : List α :=
  as.foldl (fun l a => insertUpper cmp a l) l

@[simp] theorem insertAll_nil (l : List α) : insertAll cmp l [] = l := rfl

@[simp] theorem insertAll_cons (l : List α) (a : α) (as : List α) :
    insertAll cmp l (a :: as) = insertAll cmp (insertUpper cmp a l) as := rfl

theorem insertAll_append (l as bs : List α) :
    insertAll cmp l (as ++ bs) = insertAll cmp (insertAll cmp l as) bs := List.foldl_append

theorem mem_insertAll {b : α} {l as : List α} : b ∈ insertAll cmp l as ↔ b ∈ l ∨ b ∈ as := by
  induction as generalizing l with
  | nil => simp
  | cons a as ih => rw [insertAll_cons, ih, mem_insertUpper, List.mem_cons, or_assoc, or_left_comm]

theorem perm_insertAll (l as : List α) : (insertAll cmp l as).Perm (l ++ as) := by
  induction as generalizing l with
  | nil => simp
  | cons a as ih =>
    have hinsert : (insertUpper cmp a l).Perm (l ++ [a]) :=
      (List.perm_orderedInsert _ a l).trans (List.perm_append_singleton a l).symm
    exact (ih _).trans (by simpa using hinsert.append_right as)

theorem insertAll_front {l as : List α} (h : ∀ a ∈ as, ∀ b ∈ l, ¬ cmp a b = .lt) (l' : List α) :
    insertAll cmp (l ++ l') as = l ++ insertAll cmp l' as := by
  induction as generalizing l' with
  | nil => rfl
  | cons a as ih =>
    obtain ⟨ha, has⟩ := List.forall_mem_cons.mp h
    rw [insertAll_cons, insertUpper_append ha, ih has, insertAll_cons]

section Order
variable [TransCmp cmp]

/-- Two insertions commute: the smaller element ends up in front of the larger one. -/
theorem insertUpper_comm_of_lt {a b : α} (h : cmp a b = .lt) (l : List α) :
    insertUpper cmp a (insertUpper cmp b l) = insertUpper cmp b (insertUpper cmp a l) := by
  have hba : ¬ cmp b a = .lt := by
    rw [OrientedCmp.gt_of_lt h]
    decide
  induction l with
  | nil =>
    calc insertUpper cmp a [b] = [a, b] := insertUpper_cons_of_lt [] h
      _ = insertUpper cmp b [a] := (insertUpper_cons_of_not_lt [] hba).symm
  | cons c l ih =>
    by_cases hbc : cmp b c = .lt
    · have hac := TransCmp.lt_trans h hbc
      rw [insertUpper_cons_of_lt _ hbc, insertUpper_cons_of_lt _ h, insertUpper_cons_of_lt _ hac,
        insertUpper_cons_of_not_lt _ hba, insertUpper_cons_of_lt _ hbc]
    · rw [insertUpper_cons_of_not_lt _ hbc]
      by_cases hac : cmp a c = .lt
      · rw [insertUpper_cons_of_lt _ hac, insertUpper_cons_of_lt _ hac,
          insertUpper_cons_of_not_lt _ hba, insertUpper_cons_of_not_lt _ hbc]
      · rw [insertUpper_cons_of_not_lt _ hac, insertUpper_cons_of_not_lt _ hac,
          insertUpper_cons_of_not_lt _ hbc, ih]

theorem insertUpper_comm {a b : α} (h : cmp a b ≠ .eq) (l : List α) :
    insertUpper cmp a (insertUpper cmp b l) = insertUpper cmp b (insertUpper cmp a l) := by
  cases hab : cmp a b with
  | lt => exact insertUpper_comm_of_lt hab l
  | eq => exact absurd hab h
  | gt => exact (insertUpper_comm_of_lt (OrientedCmp.lt_of_gt hab) l).symm

/-- Elements that the comparison tells apart may be inserted in any order. -/
theorem insertAll_perm {as bs : List α} (hperm : as.Perm bs)
    (h : as.Pairwise fun a b => cmp a b ≠ .eq) (l : List α) :
    insertAll cmp l as = insertAll cmp l bs := by
  have : Std.Symm fun a b => cmp a b ≠ .eq :=
    ⟨fun a b hne heq => hne (OrientedCmp.eq_comm.mp heq)⟩
  refine hperm.foldl_eq' (fun a ha b hb l => ?_) l
  by_cases hab : a = b
  · rw [hab]
  · exact insertUpper_comm (h.forall hb ha (Ne.symm hab)) l

theorem sorted_insertUpper (a : α) {l : List α} (h : l.Pairwise (cmp · · |>.isLE)) :
    (insertUpper cmp a l).Pairwise (cmp · · |>.isLE) := by
  induction l with
  | nil => exact List.pairwise_singleton _ _
  | cons b l ih =>
    obtain ⟨hb, hl⟩ := List.pairwise_cons.mp h
    by_cases hab : cmp a b = .lt
    · rw [insertUpper_cons_of_lt _ hab]
      have hle : (cmp a b).isLE := Ordering.isLE_of_eq_lt hab
      refine .cons (List.forall_mem_cons.mpr ⟨hle, fun c hc => ?_⟩) h
      exact TransCmp.isLE_trans hle (hb c hc)
    · rw [insertUpper_cons_of_not_lt _ hab]
      refine .cons (fun c hc => ?_) (ih hl)
      rcases mem_insertUpper.mp hc with rfl | hc
      · rw [← OrientedCmp.isGE_iff_isLE]
        cases hcb : cmp c b <;> simp_all
      · exact hb c hc

theorem sorted_insertAll {l : List α} (h : l.Pairwise (cmp · · |>.isLE)) (as : List α) :
    (insertAll cmp l as).Pairwise (cmp · · |>.isLE) := by
  induction as generalizing l with
  | nil => exact h
  | cons a as ih => exact ih (sorted_insertUpper a h)

/-- Elements that the comparison tells apart, inserted into a sorted list. -/
theorem strictlySorted_insertAll {l as : List α} (hl : l.Pairwise (cmp · · |>.isLE))
    (h : (l ++ as).Pairwise fun a b => cmp a b ≠ .eq) :
    (insertAll cmp l as).Pairwise (cmp · · = .lt) := by
  have hdistinct : (insertAll cmp l as).Pairwise fun a b => cmp a b ≠ .eq :=
    (perm_insertAll l as).symm.pairwise h fun hne heq => hne (OrientedCmp.eq_comm.mp heq)
  refine ((sorted_insertAll hl as).and hdistinct).imp fun {a b} ⟨hle, hne⟩ => ?_
  cases hab : cmp a b with
  | lt => rfl
  | eq => exact absurd hab hne
  | gt =>
    rw [hab] at hle
    cases hle

/-- What is left of a sorted list takes the element at the same place. -/
theorem filter_insertUpper {p : α → Bool} {a : α} (ha : p a = true) {l : List α}
    (h : l.Pairwise (cmp · · |>.isLE)) :
    (insertUpper cmp a l).filter p = insertUpper cmp a (l.filter p) := by
  induction l with
  | nil => exact List.filter_cons_of_pos ha
  | cons b l ih =>
    obtain ⟨hb, hl⟩ := List.pairwise_cons.mp h
    by_cases hab : cmp a b = .lt
    · have habove : ∀ c ∈ b :: l, cmp a c = .lt := List.forall_mem_cons.mpr
        ⟨hab, fun c hc => TransCmp.lt_of_lt_of_isLE hab (hb c hc)⟩
      rw [insertUpper_cons_of_lt _ hab, List.filter_cons_of_pos ha]
      cases hf : (b :: l).filter p with
      | nil => rfl
      | cons c cs =>
        have hc : c ∈ b :: l := List.mem_of_mem_filter (hf ▸ List.mem_cons_self)
        rw [insertUpper_cons_of_lt _ (habove c hc)]
    · rw [insertUpper_cons_of_not_lt _ hab]
      cases hp : p b with
      | true =>
        rw [List.filter_cons_of_pos hp, List.filter_cons_of_pos hp, ih hl,
          insertUpper_cons_of_not_lt _ hab]
      | false =>
        rw [List.filter_cons_of_neg (by simp [hp]), List.filter_cons_of_neg (by simp [hp]), ih hl]

theorem filter_insertAll {p : α → Bool} {as : List α} (has : ∀ a ∈ as, p a = true) {l : List α}
    (h : l.Pairwise (cmp · · |>.isLE)) :
    (insertAll cmp l as).filter p = insertAll cmp (l.filter p) as := by
  induction as generalizing l with
  | nil => rfl
  | cons a as ih =>
    obtain ⟨ha, has⟩ := List.forall_mem_cons.mp has
    rw [insertAll_cons, ih has (sorted_insertUpper a h), filter_insertUpper ha h, insertAll_cons]

end Order

/-! ## Sorted sets -/

namespace SortedSet

/-- An element that the comparison tells from those of the list is put into it. -/
theorem perm_insertList {a : α} {bs : List α} (h : ∀ b ∈ bs, cmp a b ≠ .eq) :
    (insertList cmp a bs).Perm (a :: bs) := by
  induction bs with
  | nil => exact .refl _
  | cons c cs ih =>
    obtain ⟨hc, hcs⟩ := List.forall_mem_cons.mp h
    rw [insertList]
    split
    · exact .refl _
    · next heq => exact absurd heq hc
    · exact ((ih hcs).cons c).trans (.swap a c cs)

variable [TransCmp cmp]

/-- `insert`, for each element of a list. -/
def insertMany (s : SortedSet α cmp) (as : List α) : SortedSet α cmp :=
  as.foldl (fun s a => s.insert a) s

theorem mem_insertMany {s : SortedSet α cmp} {as : List α} {b : α} (h : b ∈ s.insertMany as) :
    b ∈ s ∨ b ∈ as := by
  induction as generalizing s with
  | nil => exact .inl h
  | cons a as ih =>
    rcases ih h with h | h
    · rcases mem_insert h with rfl | h
      · exact .inr List.mem_cons_self
      · exact .inl h
    · exact .inr (List.mem_cons_of_mem _ h)

theorem perm_insertMany {s : SortedSet α cmp} {as : List α}
    (h : (s.elems ++ as).Pairwise fun a b => cmp a b ≠ .eq) :
    (s.insertMany as).elems.Perm (s.elems ++ as) := by
  induction as generalizing s with
  | nil => simp [insertMany]
  | cons a as ih =>
    have hperm : (s.insert a).elems.Perm (s.elems ++ [a]) := by
      have hnew : ∀ b ∈ s.elems, cmp a b ≠ .eq := fun b hb heq =>
        (List.pairwise_append.mp h).2.2 b hb a List.mem_cons_self (OrientedCmp.eq_comm.mp heq)
      exact (perm_insertList hnew).trans (List.perm_append_singleton a s.elems).symm
    have hcat : ((s.insert a).elems ++ as).Perm (s.elems ++ a :: as) := by
      simpa using hperm.append_right as
    refine (ih ?_).trans hcat
    exact hcat.symm.pairwise h fun hne heq => hne (OrientedCmp.eq_comm.mp heq)

end SortedSet
