import Mathlib.Data.List.Forall2
import Yubindb.Db.Merging

/-!
# The two-level iterator

`SetDataIterator` only replaces a data iterator that is already there, so the first one is never set:
the iterator runs through the whole index and is not valid behind any call.
-/

namespace Yubindb
open Cursor Std

namespace TweLevelIterator
variable {σ τ : Type} {index : Iterator σ} {data : Iterator τ} {blockFunction : Bytes → Option τ}

/-- An index iterator and a block function, with the separators, the handles and the blocks that they
stand for. -/
structure Represents (ok : Bytes → Prop) (index : Iterator σ) (data : Iterator τ)
    (blockFunction : Bytes → Option τ) (s : σ) (pairs : List (Bytes × Bytes))
    (blocks : List (List (Bytes × Bytes))) : Prop where
  index : ∃ p, Behaves cmp ok pairs index s p
  pairs_ascending : Ascending cmp pairs
  block : List.Forall₂ (fun pair xs => ∃ d p, blockFunction pair.2 = some d ∧
    Behaves cmp ok xs data d p) pairs blocks
  blocks_ascending : ∀ xs ∈ blocks, Ascending cmp xs
  upper : List.Forall₂ (fun pair xs => ∀ e ∈ xs, (cmp e.1 pair.1).isLE) pairs blocks
  lower : List.Forall₂ (fun pair xs => ∀ e ∈ xs, cmp pair.1 e.1 = .lt) pairs.dropLast blocks.tail

/-- There is no data iterator. -/
def Unset (t : TweLevelIterator σ τ) : Prop := t.dataIter.iter = none ∧ t.dataIter.valid = false

theorem unset_new (s : σ) : (new index s : TweLevelIterator σ τ).Unset := ⟨rfl, rfl⟩

variable {t t' : TweLevelIterator σ τ}

theorem Unset.clear (h : t.Unset) : t.clear = t := by
  rw [TweLevelIterator.clear, if_neg (by simp [h.1])]

theorem Unset.initDataBlock (h : t.Unset) :
    (t.initDataBlock index data blockFunction).Unset ∧
      (t.initDataBlock index data blockFunction).indexIter = t.indexIter := by
  rw [TweLevelIterator.initDataBlock, h.clear]
  split
  · exact ⟨h, rfl⟩
  · simp only [setDataIterator, h.1]
    exact ⟨h, rfl⟩

/-- No block is entered. -/
theorem Unset.enterBlock {indexCall dataCall : Move Bytes} (h : t.Unset)
    (henter : t.enterBlock index data blockFunction indexCall dataCall = some t') :
    t'.Unset ∧ (IteratorWrapper.iterator index).move indexCall t.indexIter = some t'.indexIter := by
  obtain ⟨t₁, hindex, henter⟩ := Option.bind_eq_some_iff.mp henter
  obtain ⟨w, hw, heq⟩ := Option.bind_eq_some_iff.mp hindex
  cases heq
  have h₁ := @Unset.initDataBlock _ _ index data blockFunction { t with indexIter := w } h
  rw [moveDataIfSet, if_neg (by simp [h₁.1.1])] at henter
  cases henter
  exact ⟨h₁.1, by rw [h₁.2, hw]⟩

theorem Unset.moveData (h : t.Unset) (call : Move Bytes) : t.moveData data call = none := by
  simp [TweLevelIterator.moveData, IteratorWrapper.iterator, h.1]

/-- The loops leave no data iterator, when they end. -/
theorem unset_skipEmptyDataBlocks {step seek : Move Bytes} (h : t.Unset)
    (hskip : skipEmptyDataBlocks index data blockFunction step seek t = some t') : t'.Unset := by
  refine skipEmptyDataBlocks.partial_correctness index data blockFunction step seek
    (fun t t' => t.Unset → t'.Unset) ?_ t t' hskip h
  intro skip ih t t' hres h
  rw [if_pos (.inl (by simp [h.1])), h.clear] at hres
  split at hres
  · cases hres
    exact h
  · obtain ⟨t₁, henter, hres⟩ := Option.bind_eq_some_iff.mp hres
    exact ih _ _ hres (h.enterBlock henter).1

theorem unset_moveBoth {call step seek : Move Bytes} (h : t.Unset)
    (hmove : moveBoth index data blockFunction call
      (skipEmptyDataBlocks index data blockFunction step seek) t = some t') : t'.Unset := by
  obtain ⟨t₁, henter, hmove⟩ := Option.bind_eq_some_iff.mp hmove
  exact unset_skipEmptyDataBlocks (h.enterBlock henter).1 hmove

theorem Unset.moveInBlock (h : t.Unset) (call : Move Bytes)
    (skip : TweLevelIterator σ τ → Option (TweLevelIterator σ τ)) :
    t.moveInBlock data call skip = none := by
  rw [TweLevelIterator.moveInBlock, h.moveData]
  rfl

/-- No call makes the iterator valid. -/
theorem unset_move {call : Move Bytes} (h : t.Unset)
    (hmove : move index data blockFunction call t = some t') : t'.Unset := by
  cases call with
  | seekToFirst => exact unset_moveBoth h hmove
  | seekToLast => exact unset_moveBoth h hmove
  | seek target => exact unset_moveBoth h hmove
  | next => cases (h.moveInBlock _ _).symm.trans hmove
  | prev => cases (h.moveInBlock _ _).symm.trans hmove

theorem Unset.current (h : t.Unset) : (iterator index data blockFunction).current t = none := by
  rw [Iter.current]
  exact if_neg (by simp [iterator, h.2])

/-! ## The loops end -/

section
variable {ok : Bytes → Prop} {pairs : List (Bytes × Bytes)} {p : ℕ}

/-- Without a data iterator, with the index iterator at `p`. -/
structure UnsetAt (ok : Bytes → Prop) (index : Iterator σ) (pairs : List (Bytes × Bytes))
    (t : TweLevelIterator σ τ) (p : ℕ) : Prop where
  unset : t.Unset
  index : Behaves cmp ok pairs (IteratorWrapper.iterator index) t.indexIter p

theorem UnsetAt.enterBlock (indexCall dataCall : Move Bytes)
    (h : UnsetAt ok index pairs t p) (hlegal : Legal ok pairs p indexCall) :
    ∃ t', t.enterBlock index data blockFunction indexCall dataCall = some t' ∧
      UnsetAt ok index pairs t' (Cursor.move cmp pairs indexCall p) := by
  obtain ⟨w, hw, hbehaves⟩ := h.index.move hlegal
  have h₁ := @Unset.initDataBlock _ _ index data blockFunction { t with indexIter := w } h.unset
  refine ⟨_, ?_, h₁.1, h₁.2 ▸ hbehaves⟩
  rw [TweLevelIterator.enterBlock, moveIndex, hw]
  exact if_neg (by simp [h₁.1.1])

/-- One turn of the loops. -/
theorem UnsetAt.skip_eq {step seek : Move Bytes} (h : UnsetAt ok index pairs t p) :
    skipEmptyDataBlocks index data blockFunction step seek t =
      if p < pairs.length then
        (t.enterBlock index data blockFunction step seek).bind
          (skipEmptyDataBlocks index data blockFunction step seek)
      else some t := by
  rw [skipEmptyDataBlocks, if_pos (.inl (by simp [h.unset.1])), h.unset.clear]
  by_cases hp : p < pairs.length
  · have hvalid : t.indexIter.valid = true := h.index.valid.mpr hp
    rw [if_pos hp, if_neg (by simp [hvalid])]
    rfl
  · have hvalid : ¬ t.indexIter.valid = true := fun hvalid => hp (h.index.valid.mp hvalid)
    rw [if_neg hp, if_pos (by simp [hvalid])]
    rfl

/-- Forward, the index iterator runs to the end. -/
theorem UnsetAt.skipForward (h : UnsetAt ok index pairs t p) :
    ∃ t' q, skipEmptyDataBlocks index data blockFunction .next .seekToFirst t = some t' ∧
      UnsetAt ok index pairs t' q := by
  obtain ⟨n, hn⟩ : ∃ n, pairs.length - p = n := ⟨_, rfl⟩
  induction n generalizing t p with
  | zero =>
    have hp : ¬ p < pairs.length := by omega
    exact ⟨t, p, by rw [h.skip_eq, if_neg hp], h⟩
  | succ n ih =>
    have hp : p < pairs.length := by omega
    obtain ⟨t₁, henter, h₁⟩ := h.enterBlock .next .seekToFirst hp
    obtain ⟨t', q, hskip, h'⟩ := ih h₁ (by simp only [Cursor.move]; omega)
    exact ⟨t', q, by rw [h.skip_eq, if_pos hp, henter, Option.bind_some, hskip], h'⟩

/-- Backward, it runs to the front. -/
theorem UnsetAt.skipBackward (h : UnsetAt ok index pairs t p) :
    ∃ t' q, skipEmptyDataBlocks index data blockFunction .prev .seekToLast t = some t' ∧
      UnsetAt ok index pairs t' q := by
  induction p generalizing t with
  | zero =>
    by_cases hp : 0 < pairs.length
    · obtain ⟨t₁, henter, h₁⟩ := h.enterBlock .prev .seekToLast hp
      have hstop : skipEmptyDataBlocks index data blockFunction .prev .seekToLast t₁ = some t₁ := by
        rw [h₁.skip_eq]
        exact if_neg (Nat.lt_irrefl _)
      exact ⟨t₁, _, by rw [h.skip_eq, if_pos hp, henter, Option.bind_some, hstop], h₁⟩
    · exact ⟨t, 0, by rw [h.skip_eq, if_neg hp], h⟩
  | succ p ih =>
    by_cases hp : p + 1 < pairs.length
    · obtain ⟨t₁, henter, h₁⟩ := h.enterBlock .prev .seekToLast hp
      obtain ⟨t', q, hskip, h'⟩ := ih h₁
      exact ⟨t', q, by rw [h.skip_eq, if_pos hp, henter, Option.bind_some, hskip], h'⟩
    · exact ⟨t, p + 1, by rw [h.skip_eq, if_neg hp], h⟩

/-- Over empty blocks every call that is allowed ends. -/
theorem UnsetAt.move {call : Move Bytes} {q : ℕ} (h : UnsetAt ok index pairs t p)
    (hlegal : Legal ok ([] : List (Bytes × Bytes)) q call) :
    ∃ t' p', move index data blockFunction call t = some t' ∧ UnsetAt ok index pairs t' p' := by
  cases call with
  | seekToFirst =>
    obtain ⟨t₁, henter, h₁⟩ := h.enterBlock .seekToFirst .seekToFirst trivial
    obtain ⟨t', p', hskip, h'⟩ := h₁.skipForward
    exact ⟨t', p', by rw [TweLevelIterator.move, moveBoth, henter]; exact hskip, h'⟩
  | seekToLast =>
    obtain ⟨t₁, henter, h₁⟩ := h.enterBlock .seekToLast .seekToLast trivial
    obtain ⟨t', p', hskip, h'⟩ := h₁.skipBackward
    exact ⟨t', p', by rw [TweLevelIterator.move, moveBoth, henter]; exact hskip, h'⟩
  | seek target =>
    obtain ⟨t₁, henter, h₁⟩ := h.enterBlock (.seek target) (.seek target) hlegal
    obtain ⟨t', p', hskip, h'⟩ := h₁.skipForward
    exact ⟨t', p', by rw [TweLevelIterator.move, moveBoth, henter]; exact hskip, h'⟩
  | next => exact absurd hlegal (Nat.not_lt_zero _)
  | prev => exact absurd hlegal (Nat.not_lt_zero _)

end

/-! ## The exact condition -/

/-- `SeekToFirst` shows whether there is an entry. -/
theorem eq_nil_of_behaves {ok : Bytes → Prop} {s : σ} {xs : List (Bytes × Bytes)}
    (h : Behaves cmp ok xs (iterator index data blockFunction) (new index s) xs.length) :
    xs = [] := by
  obtain ⟨t', hmove, hat⟩ := h.move (m := .seekToFirst) trivial
  have hmove : move index data blockFunction .seekToFirst (new index s) = some t' := hmove
  have hcurrent := hat.current
  rw [(unset_move (unset_new s) hmove).current, Cursor.move] at hcurrent
  exact List.length_eq_zero_iff.mp (Nat.le_zero.mp (List.getElem?_eq_none_iff.mp hcurrent.symm))

/-- The iterator is a cursor on the concatenation of the blocks where there is no entry. -/
theorem behaves_new_iff (ok : Bytes → Prop) (index : Iterator σ) (data : Iterator τ)
    (blockFunction : Bytes → Option τ) (s : σ) (pairs : List (Bytes × Bytes))
    (blocks : List (List (Bytes × Bytes)))
    (h : Represents ok index data blockFunction s pairs blocks) :
    Behaves cmp ok blocks.flatten (iterator index data blockFunction) (new index s)
        blocks.flatten.length ↔
      ∀ xs ∈ blocks, xs = [] := by
  rw [← List.flatten_eq_nil_iff]
  constructor
  · exact eq_nil_of_behaves
  · intro hnil
    rw [hnil]
    obtain ⟨p, hp⟩ := h.index
    refine Behaves.of_simulation (R := fun t _ => ∃ p, UnsetAt ok index pairs t p) ?_ ?_ ?_
    · intro t q ⟨p, ht⟩
      rw [ht.unset.current, List.getElem?_nil]
    · intro t q call ⟨p, ht⟩ hlegal
      obtain ⟨t', p', hmove, ht'⟩ := ht.move hlegal
      exact ⟨t', hmove, p', ht'⟩
    · exact ⟨p, unset_new s,
        IteratorWrapper.InStep.behaves (IteratorWrapper.inStep_update _ _) hp⟩

/-- An index with one separator, which is also its handle, over the given block. -/
def oneBlock (xs : List (Bytes × Bytes)) : Bytes → Option (List (Bytes × Bytes) × ℕ) :=
  fun _ => some (xs, 0)

theorem represents_oneBlock {k : Bytes} {xs : List (Bytes × Bytes)} (hxs : Ascending cmp xs)
    (hupper : ∀ e ∈ xs, (cmp e.1 k).isLE) :
    Represents (8 ≤ ·.length) (ofList cmp) (ofList cmp) (oneBlock xs) ([(k, k)], 0) [(k, k)] [xs] where
  index := ⟨0, behaves_ofList _ _⟩
  pairs_ascending := List.pairwise_singleton _ _
  block := .cons ⟨_, 0, rfl, behaves_ofList _ _⟩ .nil
  blocks_ascending := by simpa using hxs
  upper := .cons hupper .nil
  lower := .nil

def oneKey : Bytes := (InternalKey.new [1] 1 .value).Key

theorem behaves_new_empty :
    Behaves cmp (8 ≤ ·.length) ([[]] : List (List (Bytes × Bytes))).flatten
        (iterator (ofList cmp) (ofList cmp) (oneBlock [])) (new (ofList cmp) ([(oneKey, oneKey)], 0))
        ([[]] : List (List (Bytes × Bytes))).flatten.length ↔
      ∀ xs ∈ [([] : List (Bytes × Bytes))], xs = [] :=
  behaves_new_iff _ _ _ _ _ _ _ (represents_oneBlock .nil (by simp))

/-- One block with one entry. -/
theorem not_behaves_new :
    Represents (8 ≤ ·.length) (ofList cmp) (ofList cmp) (oneBlock [(oneKey, [7])])
        ([(oneKey, oneKey)], 0) [(oneKey, oneKey)] [[(oneKey, [7])]] ∧
      ¬ Behaves cmp (8 ≤ ·.length) [[(oneKey, ([7] : Bytes))]].flatten
        (iterator (ofList cmp) (ofList cmp) (oneBlock [(oneKey, [7])]))
        (new (ofList cmp) ([(oneKey, oneKey)], 0)) [[(oneKey, ([7] : Bytes))]].flatten.length := by
  refine ⟨represents_oneBlock (List.pairwise_singleton _ _) ?_, ?_⟩
  · simp [@ReflCmp.compare_self _ cmp]
  · intro h
    cases eq_nil_of_behaves h

end TweLevelIterator
end Yubindb
