import Mathlib.Data.List.Basic

/-!
# Sorted sets

A set of elements that a comparison function tells apart, kept as a strictly ascending list. An
element is only inserted when the set has none that compares equal to it.
-/

open Std

variable {α : Type*} {cmp : α → α → Ordering}

/-- A strictly ascending list. -/
structure SortedSet (α : Type*) (cmp : α → α → Ordering) where
  elems : List α
  sorted : elems.Pairwise (cmp · · = .lt)

namespace SortedSet

def empty : SortedSet α cmp := ⟨[], .nil⟩

instance : Membership α (SortedSet α cmp) := ⟨fun s a => a ∈ s.elems⟩

theorem not_mem_empty (a : α) : a ∉ (empty : SortedSet α cmp) := List.not_mem_nil

/-- Where `a` belongs in an ascending list. -/
def insertList (cmp : α → α → Ordering) (a : α) : List α → List α
  | [] => [a]
  | b :: bs =>
    match cmp a b with
    | .lt => a :: b :: bs
    | .eq => b :: bs
    | .gt => b :: insertList cmp a bs

theorem mem_insertList_self_or {a b : α} {bs : List α} (h : b ∈ insertList cmp a bs) :
    b = a ∨ b ∈ bs := by
  induction bs with
  | nil => exact .inl (List.mem_singleton.mp h)
  | cons c cs ih =>
    rw [insertList] at h
    split at h
    · exact List.mem_cons.mp h
    · exact .inr h
    · rcases List.mem_cons.mp h with rfl | h
      · exact .inr List.mem_cons_self
      · exact (ih h).imp_right (List.mem_cons_of_mem _)

theorem mem_insertList_of_mem {a b : α} {bs : List α} (h : b ∈ bs) : b ∈ insertList cmp a bs := by
  induction bs with
  | nil => cases h
  | cons c cs ih =>
    rw [insertList]
    split
    · exact List.mem_cons_of_mem _ h
    · exact h
    · rcases List.mem_cons.mp h with rfl | h
      · exact List.mem_cons_self
      · exact List.mem_cons_of_mem _ (ih h)

theorem exists_mem_insertList (a : α) (bs : List α) :
    a ∈ insertList cmp a bs ∨ ∃ b ∈ bs, cmp a b = .eq := by
  induction bs with
  | nil => exact .inl (List.mem_singleton.mpr rfl)
  | cons c cs ih =>
    rw [insertList]
    split
    · exact .inl List.mem_cons_self
    · next heq => exact .inr ⟨c, List.mem_cons_self, heq⟩
    · rcases ih with h | ⟨b, hb, heq⟩
      · exact .inl (List.mem_cons_of_mem _ h)
      · exact .inr ⟨b, List.mem_cons_of_mem _ hb, heq⟩

variable [TransCmp cmp]

theorem sorted_insertList (a : α) {bs : List α} (h : bs.Pairwise (cmp · · = .lt)) :
    (insertList cmp a bs).Pairwise (cmp · · = .lt) := by
  induction bs with
  | nil => exact List.pairwise_singleton _ _
  | cons c cs ih =>
    obtain ⟨hc, hcs⟩ := List.pairwise_cons.mp h
    rw [insertList]
    split
    · next hlt =>
      refine .cons ?_ h
      intro b hb
      rcases List.mem_cons.mp hb with rfl | hb
      · exact hlt
      · exact TransCmp.lt_trans hlt (hc b hb)
    · exact h
    · next hgt =>
      refine .cons ?_ (ih hcs)
      intro b hb
      rcases mem_insertList_self_or hb with rfl | hb
      · exact OrientedCmp.lt_of_gt hgt
      · exact hc b hb

/-- `std::set::insert`. -/
def insert (a : α) (s : SortedSet α cmp) : SortedSet α cmp :=
  ⟨insertList cmp a s.elems, sorted_insertList a s.sorted⟩

theorem mem_insert {a b : α} {s : SortedSet α cmp} (h : b ∈ s.insert a) : b = a ∨ b ∈ s :=
  mem_insertList_self_or h

theorem mem_insert_of_mem {a b : α} {s : SortedSet α cmp} (h : b ∈ s) : b ∈ s.insert a :=
  mem_insertList_of_mem h

/-- What the comparison cannot tell apart is in the set after an insertion. -/
theorem exists_mem_insert_iff {p : α → Prop} {a : α} {s : SortedSet α cmp}
    (hp : ∀ b, cmp a b = .eq → (p a ↔ p b)) :
    (∃ b ∈ s.insert a, p b) ↔ p a ∨ ∃ b ∈ s, p b := by
  constructor
  · rintro ⟨b, hb, hpb⟩
    rcases mem_insert hb with rfl | hb
    · exact .inl hpb
    · exact .inr ⟨b, hb, hpb⟩
  · rintro (hpa | ⟨b, hb, hpb⟩)
    · rcases @exists_mem_insertList _ cmp a s.elems with h | ⟨b, hb, heq⟩
      · exact ⟨a, h, hpa⟩
      · exact ⟨b, mem_insert_of_mem hb, (hp b heq).mp hpa⟩
    · exact ⟨b, mem_insert_of_mem hb, hpb⟩

end SortedSet
