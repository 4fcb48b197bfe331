import Yubindb.Db.BlockLayout
import Yubindb.Theory.Ascending

/-!
# The block iterator is a cursor

`At` ties the offset, the key buffer and the restart index of the iterator to an entry of the list. The
restart index may lag behind; all that is kept is that its restart point is not behind the entry.
-/

namespace Yubindb
open Cursor Std Blockbuilder

namespace Blockbuilder
variable {R : ℕ} {es : List (Bytes × Bytes)} {i j : ℕ}

/-- A finished block of at most `2 ^ 32` bytes. -/
structure Fits (R : ℕ) (es : List (Bytes × Bytes)) : Prop where
  interval : 1 ≤ R
  length : (build R es).finish.length < 2 ^ 32

variable (h : Fits R es)
include h

theorem Fits.length_buffer : (build R es).buffer.length + 4 * (build R es).restarts.length + 4 < 2 ^ 32 := by
  have := h.length
  rw [finish, List.length_append, List.length_append, length_flatMap_encodeFixed32,
    length_encodeFixed32] at this
  omega

theorem Fits.entryOffset_le (hj : j ≤ es.length) : entryOffset R es j ≤ (build R es).buffer.length := by
  have := (buffer_mono h.interval hj (Nat.le_refl es.length)).length_le
  rwa [List.take_length] at this

theorem Fits.entryOffset_lt (hj : j ≤ es.length) : entryOffset R es j < 2 ^ 32 := by
  have := h.entryOffset_le hj
  have := h.length_buffer
  omega

theorem Fits.restarts : (build R es).restarts =
    (List.range ((es.length - 1) / R + 1)).map fun i => entryOffset R es (i * R) % 2 ^ 32 := by
  have := (builtTo h.interval (Nat.le_refl es.length)).restarts
  rwa [List.take_length] at this

theorem Fits.length_restarts : (build R es).restarts.length = (es.length - 1) / R + 1 := by
  rw [h.restarts, List.length_map, List.length_range]

/-- The restart points are those of entries. -/
theorem Fits.mul_le (hi : i < (build R es).restarts.length) : i * R ≤ es.length - 1 := by
  rw [h.length_restarts, Nat.lt_succ_iff] at hi
  exact (Nat.le_div_iff_mul_le h.interval).mp hi

theorem Fits.getElem_restarts (hi : i < (build R es).restarts.length) :
    (build R es).restarts[i] = entryOffset R es (i * R) := by
  have hle := h.mul_le hi
  simp only [h.restarts, List.getElem_map, List.getElem_range]
  exact Nat.mod_eq_of_lt (h.entryOffset_lt (hle.trans (Nat.sub_le _ _)))

omit h in
theorem take_finish : (build R es).finish.take (build R es).buffer.length = (build R es).buffer := by
  rw [finish, List.append_assoc, List.take_left]

theorem Fits.decodeFixed32_restart (hi : i < (build R es).restarts.length) :
    decodeFixed32 ((build R es).finish.drop ((build R es).buffer.length + i * 4)) =
      entryOffset R es (i * R) := by
  have hlen := length_flatMap_encodeFixed32 (build R es).restarts
  have hdrop : (build R es).finish.drop ((build R es).buffer.length + i * 4) =
      encodeFixed32 (build R es).restarts[i] ++ (((build R es).restarts.drop (i + 1)).flatMap
        encodeFixed32 ++ encodeFixed32 (build R es).restarts.length) := by
    rw [finish, List.append_assoc, ← List.drop_drop, List.drop_left, List.drop_append_of_le_length
      (by rw [hlen]; omega), drop_flatMap_encodeFixed32, List.drop_eq_getElem_cons hi,
      List.flatMap_cons, List.append_assoc]
  have hle := h.mul_le hi
  rw [hdrop, h.getElem_restarts hi]
  exact decodeFixed32_encode (h.entryOffset_lt (hle.trans (Nat.sub_le _ _))) _

theorem Fits.numRestarts :
    decodeFixed32 ((build R es).finish.drop ((build R es).finish.length - 4)) =
      (build R es).restarts.length := by
  have hlen := h.length_buffer
  have hdrop : (build R es).finish.drop ((build R es).finish.length - 4) =
      encodeFixed32 (build R es).restarts.length ++ [] := by
    rw [finish, List.length_append, length_encodeFixed32, Nat.add_sub_cancel, List.drop_left,
      List.append_nil]
  rw [hdrop]
  exact decodeFixed32_encode (by omega) _

end Blockbuilder

/-! ## The iterator -/

namespace BlockIter
variable {R : ℕ} {es : List (Bytes × Bytes)} {it it' : BlockIter} {i j p : ℕ}

/-- An iterator of the finished block. -/
structure Over (R : ℕ) (es : List (Bytes × Bytes)) (it : BlockIter) : Prop where
  data : it.data = (build R es).finish
  restarts : it.restarts = (build R es).buffer.length
  numRestarts : it.numRestarts = (build R es).restarts.length

/-- The next entry that `ParseNextKey` reads is `j`. -/
structure Ready (R : ℕ) (es : List (Bytes × Bytes)) (it : BlockIter) (j : ℕ) : Prop
    extends Over R es it where
  offset : it.nextEntryOffset = entryOffset R es j
  key : sharedAt R es j = 0 ∨ it.key = previousKey es j
  index : it.restartIndex < it.numRestarts
  index_le : it.restartIndex * R ≤ j

/-- The iterator stands on the entry `j`. -/
structure At (R : ℕ) (es : List (Bytes × Bytes)) (it : BlockIter) (j : ℕ) : Prop
    extends Over R es it where
  entry : es[j]? = some (it.key, it.value)
  current : it.current = entryOffset R es j
  offset : it.nextEntryOffset = entryOffset R es (j + 1)
  index : it.restartIndex < it.numRestarts
  index_le : it.restartIndex * R ≤ j

/-- The iterator stands at a position of the list, or behind all of it. -/
def Stands (R : ℕ) (es : List (Bytes × Bytes)) (it : BlockIter) (p : ℕ) : Prop :=
  At R es it p ∨ Over R es it ∧ es.length ≤ p ∧ it.current = it.restarts

theorem At.lt (ha : At R es it j) : j < es.length := (List.getElem?_eq_some_iff.mp ha.entry).1

theorem At.getElem (ha : At R es it j) (hj : j < es.length) : es[j] = (it.key, it.value) :=
  (List.getElem?_eq_some_iff.mp ha.entry).2

theorem At.ready (ha : At R es it j) : Ready R es it (j + 1) where
  toOver := ha.toOver
  offset := ha.offset
  key := .inr (by rw [previousKey_succ ha.lt, ha.getElem ha.lt])
  index := ha.index
  index_le := ha.index_le.trans (Nat.le_succ j)

variable (h : Fits R es)
include h

theorem Over.getRestartPoint (ho : Over R es it) (hi : i < it.numRestarts) :
    it.getRestartPoint i = entryOffset R es (i * R) := by
  rw [BlockIter.getRestartPoint, ho.data, ho.restarts]
  exact h.decodeFixed32_restart (ho.numRestarts ▸ hi)

theorem Over.mul_le (ho : Over R es it) (hi : i < it.numRestarts) : i * R ≤ es.length - 1 :=
  h.mul_le (ho.numRestarts ▸ hi)

theorem Over.seekToRestartPoint (ho : Over R es it) (hi : i < it.numRestarts) :
    Ready R es (it.seekToRestartPoint i) (i * R) where
  data := ho.data
  restarts := ho.restarts
  numRestarts := ho.numRestarts
  offset := ho.getRestartPoint h hi
  key := .inl (sharedAt_mul R es i)
  index := hi
  index_le := Nat.le_refl _

theorem Over.decodeEntry (ho : Over R es it) (hj : j < es.length) :
    decodeEntry (it.entriesFrom (entryOffset R es j)) =
      some (sharedAt R es j, es[j].1.length - sharedAt R es j, es[j].2.length,
        es[j].1.drop (sharedAt R es j) ++ es[j].2 ++
          (build R es).buffer.drop (entryOffset R es (j + 1))) := by
  have hdrop := drop_entryOffset h.interval hj
  have hshared : sharedAt R es j < 2 ^ 32 := by
    have hkey := (sharedAt_le (R := R) hj).2.trans (length_key_le h.interval hj)
    exact hkey.trans_lt (h.entryOffset_lt (Nat.succ_le_of_lt hj))
  rw [entriesFrom, ho.data, ho.restarts, take_finish, hdrop]
  apply decodeEntry_encodeEntry hshared
  rw [← hdrop, List.length_drop]
  have := h.length_buffer
  omega

/-- The restart index does not run past the entry. -/
theorem Over.advanceIndex (ho : Over R es it) (hj : j < es.length) (hi : i < it.numRestarts)
    (hle : i * R ≤ j) : it.advanceIndex (entryOffset R es j) i < it.numRestarts ∧
      it.advanceIndex (entryOffset R es j) i * R ≤ j := by
  fun_induction BlockIter.advanceIndex it (entryOffset R es j) i with
  | case1 i hmore ih =>
    obtain ⟨hnum, hpoint⟩ := hmore
    rw [ho.getRestartPoint h hnum] at hpoint
    have hmul := ho.mul_le h hnum
    have hlt := (entryOffset_lt_iff h.interval (by omega) hj.le).mp hpoint
    exact ih hnum hlt.le
  | case2 i _ => exact ⟨hi, hle⟩

theorem Ready.parseNextKey (hr : Ready R es it j) (hj : j < es.length) :
    ∃ it', it.parseNextKey = (true, it') ∧ At R es it' j := by
  have hlast := entryOffset_lt h.interval hj (Nat.le_refl es.length)
  have hnext : entryOffset R es (j + 1) ≤ _ := h.entryOffset_le hj
  rw [entryOffset_length] at hlast
  have htake : it.key.take (sharedAt R es j) = es[j].1.take (sharedAt R es j) := by
    rcases hr.key with hzero | hkey
    · rw [hzero, List.take_zero, List.take_zero]
    · rw [hkey, take_sharedAt hj]
  have hshared := sharedAt_le (R := R) hj
  have hlong : ¬ it.key.length < sharedAt R es j := by
    rcases hr.key with hzero | hkey
    · omega
    · rw [hkey]
      omega
  have hindex := hr.toOver.advanceIndex h hj hr.index hr.index_le
  have hlen : (es[j].1.drop (sharedAt R es j)).length = es[j].1.length - sharedAt R es j :=
    List.length_drop
  rw [BlockIter.parseNextKey, hr.offset, hr.restarts, if_neg (Nat.not_le.mpr hlast)]
  simp only [hr.toOver.decodeEntry h hj, if_neg hlong]
  refine ⟨_, rfl, ⟨hr.data, hr.restarts.symm ▸ rfl, hr.numRestarts⟩, ?_, rfl, ?_, hindex.1, hindex.2⟩
  · rw [List.getElem?_eq_getElem hj]
    congr 1
    refine Prod.ext ?_ ?_
    · dsimp only
      rw [htake, ← hlen, List.append_assoc, List.take_left, List.take_append_drop]
    · dsimp only
      rw [← hlen, List.append_assoc, List.drop_left, List.take_left]
  · simp only [nextEntryOffset]
    rw [← hlen, List.append_assoc, List.drop_left, List.take_left]
    simp only [List.length_append, List.length_drop]
    have hsucc := entryOffset_succ h.interval hj
    have : (encodeEntry (sharedAt R es j) es[j]).length ≥
        (es[j].1.drop (sharedAt R es j)).length + es[j].2.length := by
      simp only [encodeEntry, List.length_append]
      omega
    rw [List.length_drop] at this
    omega

omit h in
theorem parseWhile_of_true {again : BlockIter → Bool} (hparse : it.parseNextKey = (true, it')) :
    it.parseWhile again = if again it' then it'.parseWhile again else it' := by
  rw [BlockIter.parseWhile]
  split
  · next heq =>
    rw [hparse] at heq
    cases heq
    rfl
  · next heq =>
    rw [hparse] at heq
    cases heq

omit h in
theorem parseWhile_of_false {again : BlockIter → Bool} (hparse : it.parseNextKey = (false, it')) :
    it.parseWhile again = it' := by
  rw [BlockIter.parseWhile]
  split
  · next heq =>
    rw [hparse] at heq
    cases heq
  · next heq =>
    rw [hparse] at heq
    cases heq
    rfl

omit h in
theorem Ready.parseNextKey_length (hr : Ready R es it es.length) :
    ∃ it', it.parseNextKey = (false, it') ∧ Stands R es it' es.length := by
  rw [BlockIter.parseNextKey, hr.offset, hr.restarts, entryOffset_length, if_pos (Nat.le_refl _)]
  exact ⟨_, rfl, .inr ⟨⟨hr.data, rfl, hr.numRestarts⟩, Nat.le_refl _, rfl⟩⟩

theorem Ready.stands (hr : Ready R es it j) (hj : j ≤ es.length) :
    Stands R es it.parseNextKey.2 j := by
  rcases Nat.lt_or_eq_of_le hj with hlt | rfl
  · obtain ⟨it', hparse, hat⟩ := hr.parseNextKey h hlt
    rw [hparse]
    exact .inl hat
  · obtain ⟨it', hparse, hstands⟩ := hr.parseNextKey_length
    rw [hparse]
    exact hstands

/-- A scan that goes on in front of `p` ends there. -/
theorem Ready.parseWhile {again : BlockIter → Bool} (hr : Ready R es it j) (hjp : j ≤ p)
    (hp : p ≤ es.length)
    (hagain : ∀ it' i, At R es it' i → j ≤ i → (again it' = true ↔ i < p)) :
    Stands R es (it.parseWhile again) p := by
  induction hn : p - j generalizing it j with
  | zero =>
    obtain rfl : j = p := by omega
    rcases Nat.lt_or_eq_of_le hp with hlt | rfl
    · obtain ⟨it', hparse, hat⟩ := hr.parseNextKey h hlt
      have hstop : ¬ again it' = true := by
        rw [hagain it' j hat (Nat.le_refl j)]
        exact Nat.lt_irrefl j
      rw [parseWhile_of_true hparse, if_neg hstop]
      exact .inl hat
    · obtain ⟨it', hparse, hstands⟩ := hr.parseNextKey_length
      rwa [parseWhile_of_false hparse]
  | succ n ih =>
    have hlt : j < p := by omega
    obtain ⟨it', hparse, hat⟩ := hr.parseNextKey h (hlt.trans_le hp)
    have hgo : again it' = true := (hagain it' j hat (Nat.le_refl j)).mpr hlt
    rw [parseWhile_of_true hparse, if_pos hgo]
    exact ih hat.ready hlt (fun it'' i hi hle => hagain it'' i hi (Nat.le_of_succ_le hle)) (by omega)

/-! ## The calls -/

theorem Over.seekToFirst (ho : Over R es it) : Stands R es it.seekToFirst 0 := by
  have hnum : 0 < it.numRestarts := by
    rw [ho.numRestarts, h.length_restarts]
    exact Nat.succ_pos _
  have hr := ho.seekToRestartPoint h hnum
  rw [Nat.zero_mul] at hr
  exact hr.stands h (Nat.zero_le _)

theorem Over.seekToLast (ho : Over R es it) : Stands R es it.seekToLast (es.length - 1) := by
  have hnum : it.numRestarts - 1 < it.numRestarts := by
    rw [ho.numRestarts, h.length_restarts]
    exact Nat.lt_succ_self _
  apply (ho.seekToRestartPoint h hnum).parseWhile h (ho.mul_le h hnum) (Nat.sub_le _ _)
  intro it' i hi hle
  have hlt := hi.lt
  rw [decide_eq_true_eq, hi.offset, hi.restarts, ← entryOffset_length,
    entryOffset_lt_iff h.interval hi.lt (Nat.le_refl _)]
  omega

/-- A restart point from which `Seek` may scan: the first, or one with a smaller key. -/
def Before (R : ℕ) (es : List (Bytes × Bytes)) (target : Bytes) (i : ℕ) : Prop :=
  i = 0 ∨ ∃ e, es[i * R]? = some e ∧ cmp e.1 target = .lt

theorem Over.searchRestarts {target : Bytes} {left right : ℕ} (ho : Over R es it)
    (hright : right < it.numRestarts) (hle : left ≤ right) (hleft : Before R es target left) :
    ∃ i, it.searchRestarts target left right = some i ∧ i < it.numRestarts ∧
      Before R es target i := by
  induction hn : right - left using Nat.strong_induction_on generalizing left right with
  | _ n ih =>
    rw [BlockIter.searchRestarts]
    split
    · next hlt =>
      have hmid : (left + right + 1) / 2 < it.numRestarts := by omega
      have hmul := ho.mul_le h hmid
      have hpos : 0 < (left + right + 1) / 2 * R := Nat.mul_pos (by omega) h.interval
      have hentry : (left + right + 1) / 2 * R < es.length := by omega
      have hdecode := ho.decodeEntry h hentry
      simp only [sharedAt_mul] at hdecode
      simp only [ho.getRestartPoint h hmid, hdecode, List.drop_zero, Nat.sub_zero, List.append_assoc, List.take_left]
      split
      · next hne => exact absurd rfl hne
      · split
        · next hcmp =>
          have hbefore : Before R es target ((left + right + 1) / 2) :=
            .inr ⟨_, List.getElem?_eq_getElem hentry, hcmp⟩
          exact ih _ (by omega) hright (by omega) hbefore rfl
        · exact ih _ (by omega) (by omega) (by omega) hleft rfl
    · exact ⟨left, rfl, by omega, hleft⟩

theorem Over.seek {target : Bytes} (ho : Over R es it) (hes : Ascending cmp es) :
    Stands R es (it.seek target) (es.findIdx fun e => cmp e.1 target ≠ .lt) := by
  have hcut : (es.findIdx fun e => cmp e.1 target ≠ .lt) = cut (below cmp target) es := by
    rw [← findIdx_eq_cut hes (down_below target)]
    simp [below]
  have hnum : it.numRestarts - 1 < it.numRestarts := by
    rw [ho.numRestarts, h.length_restarts]
    exact Nat.lt_succ_self _
  obtain ⟨i, hsearch, hi, hbefore⟩ := ho.searchRestarts h hnum (Nat.zero_le _) (.inl rfl)
  have hle : i * R ≤ cut (below cmp target) es := by
    rcases hbefore with rfl | ⟨e, he, hcmp⟩
    · rw [Nat.zero_mul]
      exact Nat.zero_le _
    · obtain ⟨hlt, rfl⟩ := List.getElem?_eq_some_iff.mp he
      exact ((lt_cut_iff hes (down_below target) hlt).mpr (decide_eq_true hcmp)).le
  rw [BlockIter.seek, hsearch, hcut]
  apply (ho.seekToRestartPoint h hi).parseWhile h hle cut_le_length
  intro it' j hj _
  rw [lt_cut_iff hes (down_below target) hj.lt, hj.getElem hj.lt]
  rfl

/-- The loop of `Prev` ends at a restart point in front of the entry, unless there is none. -/
theorem Over.restartBefore (ho : Over R es it) (hj : j < es.length) (hi : i < it.numRestarts) :
    if j = 0 then it.restartBefore (entryOffset R es j) i = none
    else ∃ k, it.restartBefore (entryOffset R es j) i = some k ∧ k < it.numRestarts ∧ k * R < j := by
  have hlt (k : ℕ) (hk : k < it.numRestarts) :
      it.getRestartPoint k ≥ entryOffset R es j ↔ ¬ k * R < j := by
    have hmul := ho.mul_le h hk
    rw [ho.getRestartPoint h hk, ge_iff_le, ← Nat.not_lt,
      entryOffset_lt_iff h.interval (by omega) hj.le]
  induction i with
  | zero =>
    rw [BlockIter.restartBefore]
    simp only [hlt 0 hi, Nat.zero_mul]
    split
    · next hzero => simp [hzero]
    · next hne => exact ⟨0, if_neg (by omega), hi, by omega⟩
  | succ i ih =>
    rw [BlockIter.restartBefore]
    simp only [hlt (i + 1) hi]
    by_cases hmul : (i + 1) * R < j
    · rw [if_neg (by omega)]
      exact ⟨i + 1, if_neg (not_not.mpr hmul), hi, hmul⟩
    · simp only [if_pos hmul]
      exact ih (Nat.lt_of_succ_lt hi)

theorem At.prev (ha : At R es it j) :
    Stands R es it.prev (if j = 0 then es.length else j - 1) := by
  have hsearch := ha.toOver.restartBefore h ha.lt ha.index
  rw [BlockIter.prev, ha.current]
  split at hsearch
  · next hzero =>
    rw [hsearch, if_pos hzero]
    exact .inr ⟨⟨ha.data, ha.restarts, ha.numRestarts⟩, Nat.le_refl _, rfl⟩
  · next hne =>
    obtain ⟨k, hk, hnum, hlt⟩ := hsearch
    rw [hk, if_neg hne]
    have hlen := ha.lt
    apply (ha.toOver.seekToRestartPoint h hnum).parseWhile h (by omega) (by omega)
    intro it' i hi _
    rw [decide_eq_true_eq, hi.offset, entryOffset_lt_iff h.interval hi.lt hlen.le]
    omega

omit h in
theorem Stands.over (hs : Stands R es it p) : Over R es it := hs.elim (·.toOver) (·.1)

theorem Stands.current (hs : Stands R es it p) : iterator.current it = es[p]? := by
  rcases hs with ha | ⟨_, hle, hcurrent⟩
  · have hvalid : it.current < it.restarts := by
      rw [ha.current, ha.restarts, ← entryOffset_length]
      exact entryOffset_lt h.interval ha.lt (Nat.le_refl _)
    rw [ha.entry]
    exact if_pos (decide_eq_true hvalid)
  · rw [List.getElem?_eq_none hle, Iter.current]
    simp [iterator, hcurrent]

theorem Stands.move {m : Move Bytes} (hes : Ascending cmp es) (hs : Stands R es it p)
    (hm : Legal (8 ≤ ·.length) es p m) :
    ∃ it', iterator.move m it = some it' ∧ Stands R es it' (move cmp es m p) := by
  have hat (hp : p < es.length) : At R es it p := by
    rcases hs with ha | ⟨_, hle, _⟩
    · exact ha
    · exact absurd hp (Nat.not_lt.mpr hle)
  cases m with
  | seekToFirst => exact ⟨_, rfl, hs.over.seekToFirst h⟩
  | seekToLast => exact ⟨_, rfl, hs.over.seekToLast h⟩
  | seek target => exact ⟨_, rfl, hs.over.seek h hes⟩
  | next => exact ⟨_, rfl, (hat hm).ready.stands h (hat hm).lt⟩
  | prev => exact ⟨_, rfl, (hat hm).prev h⟩

end BlockIter

/-! ## The iterator of a finished block -/

section
variable {R : ℕ} {es : List (Bytes × Bytes)}

theorem Block.newIterator_finish (h : Fits R es) :
    (Block.new (build R es).finish).newIterator = some (.new (build R es).finish
      (build R es).buffer.length (build R es).restarts.length) := by
  have hsize : (build R es).finish.length =
      (build R es).buffer.length + (build R es).restarts.length * 4 + 4 := by
    rw [finish, List.length_append, List.length_append, length_flatMap_encodeFixed32,
      length_encodeFixed32]
  have hnum := h.numRestarts
  have hlen := h.length
  have hpos : 0 < (build R es).restarts.length := by
    rw [h.length_restarts]
    exact Nat.succ_pos _
  have hnew : Block.new (build R es).finish =
      ⟨(build R es).finish, (build R es).finish.length, (build R es).buffer.length⟩ := by
    simp only [Block.new, Block.numRestarts, hnum]
    rw [if_neg (by omega), if_neg (by omega)]
    congr 1
    omega
  rw [hnew, Block.newIterator, Block.numRestarts]
  simp only [hnum]
  rw [if_neg (by omega), if_pos hpos]

/-- The iterator over a finished block is a cursor on its entries. -/
theorem Block.behaves_newIterator (hR : 1 ≤ R) (hes : Ascending cmp es)
    (_hkeys : ∀ e ∈ es, 8 ≤ e.1.length) (hlen : (build R es).finish.length < 2 ^ 32) :
    ∃ it, (Block.new (build R es).finish).newIterator = some it ∧
      Behaves cmp (8 ≤ ·.length) es BlockIter.iterator it es.length := by
  have h : Fits R es := ⟨hR, hlen⟩
  refine ⟨_, Block.newIterator_finish h, ?_⟩
  apply Behaves.of_simulation (R := BlockIter.Stands R es)
  · exact fun it p hs => hs.current h
  · exact fun it p m hs hm => hs.move h hes hm
  · exact .inr ⟨⟨rfl, rfl, rfl⟩, Nat.le_refl _, rfl⟩

theorem Block.behaves_newIterator_two :
    let es : List (Bytes × Bytes) := [([97, 1, 1, 0, 0, 0, 0, 0, 0], [1]),
      ([97, 98, 1, 1, 0, 0, 0, 0, 0, 0], [])]
    ∃ it, (Block.new (build 2 es).finish).newIterator = some it ∧
      Behaves cmp (8 ≤ ·.length) es BlockIter.iterator it 2 :=
  Block.behaves_newIterator (by decide) (by decide) (by decide) (by decide)

end
end Yubindb
