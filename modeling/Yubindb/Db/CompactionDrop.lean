import Yubindb.Db.VersionLookup
import Yubindb.Theory.Survivors

/-!
# The drop rule

The part of the loop of `DBImpl::DoCompactionWork` in `src/db/db.cpp` that decides which entries of the
merged input go into the output.
-/

namespace Yubindb
open Std

/-! ## The loop -/

/-- `pkey`, whose type is the byte that `ParseInternalKey` casts. -/
structure ParsedKey where
  userKey : Bytes
  sequence : Nat
  type : Nat
  deriving DecidableEq, Repr

/-- `ParseInternalKey` into `pkey`: what it returns, and `pkey` after it. -/
def parseInto (pkey : ParsedKey) (key : Bytes) : Bool × ParsedKey :=
  let n := key.length
  if n < 8 then (false, pkey)
  else
    let num := decodeFixed64 (key.drop (n - 8))
    let c := num &&& 0xff
    (c ≤ Valuetype.value.code, ⟨key.take (n - 8), num >>> 8, c⟩)

/-- The variables of the loop; `pkey` and `has_cur_userkey` start with any values. -/
structure DropState where
  pkey : ParsedKey
  curUsrkey : Bytes := []
  hasCurUserkey : Bool
  lastSeqkey : Nat := kMaxSequenceNumber
  deriving DecidableEq, Repr

namespace DropState

/-- The two branches behind `ParseInternalKey`; undefined where `cmp` is. -/
def nextKey (st : DropState) (key : Bytes) : Option DropState :=
  let (parsed, pkey) := parseInto st.pkey key
  if !parsed then
    some { pkey, curUsrkey := [], hasCurUserkey := false, lastSeqkey := kMaxSequenceNumber }
  else
    let fresh : DropState :=
      { pkey, curUsrkey := pkey.userKey, hasCurUserkey := true, lastSeqkey := kMaxSequenceNumber }
    if !st.hasCurUserkey then some fresh
    else do
      let order ← viewCmp pkey.userKey st.curUsrkey
      return if order ≠ .eq then fresh else { st with pkey }

/-- What the loop sets `drop` to. `isBaseLevelForKey` is asked for tombstones only. -/
def drop (smallSnap : Nat) (isBaseLevelForKey : Bytes → Bool) (st : DropState) : Bool :=
  if st.lastSeqkey ≤ smallSnap then true
  else
    st.pkey.type = Valuetype.deletion.code ∧ st.pkey.sequence ≤ smallSnap ∧
      isBaseLevelForKey st.pkey.userKey

/-- One turn: `drop`, and the variables behind it. -/
def turn (smallSnap : Nat) (isBaseLevelForKey : Bytes → Bool) (st : DropState) (key : Bytes) :
    Option (Bool × DropState) :=
  (st.nextKey key).map fun st =>
    (st.drop smallSnap isBaseLevelForKey, { st with lastSeqkey := st.pkey.sequence })

/-- The entries of the input, from the `i`-th on, that are not dropped. The answers of
`IsBaseLevelForKey` may depend on where the input has got to. -/
def kept (smallSnap : Nat) (isBaseLevelForKey : Nat → Bytes → Bool) :
    Nat → DropState → List (Bytes × Bytes) → Option (List (Bytes × Bytes))
  | _, _, [] => some []
  | i, st, e :: es => do
    let (drop, st) ← st.turn smallSnap (isBaseLevelForKey i) e.1
    let rest ← kept smallSnap isBaseLevelForKey (i + 1) st es
    return if drop then rest else e :: rest

end DropState

/-! ## Reads -/

/-- What the iterator shows of an entry. -/
def Entry.item (e : Entry) : Bytes × Bytes := (e.internalKey.Key, e.value)

/-- What a reader gets of the newest version that it sees: no value from a tombstone. -/
def visibleValue : Option Entry → Option Bytes
  | some e => if e.type = .value then some e.value else none
  | none => none

/-- A read in the stream, and in the deeper levels if that has no version. -/
def readThrough (stream deeper : List Entry) (u : Bytes) (s : Nat) : Option Bytes :=
  visibleValue ((newest Entry.userKey Entry.sequence stream u s).or
    (newest Entry.userKey Entry.sequence deeper u s))

/-! ## The loop on entries -/

/-- A tombstone. -/
def Entry.isDeletion (e : Entry) : Bool := e.type = .deletion

/-- The user keys come in the order of their bytes. -/
def userKeyLt (u u' : Bytes) : Prop := compare u u' = .lt

variable {e : Entry} {smallSnap : Nat} {isBaseLevelForKey : Nat → Bytes → Bool}

theorem parseInto_internalKey (he : e.sequence < 2 ^ 56) (pkey : ParsedKey) :
    parseInto pkey e.internalKey.Key = (true, ⟨e.userKey, e.sequence, e.type.code⟩) := by
  have hparse := parseInternalKey_internalKey he
  rw [parseInternalKey] at hparse
  rw [parseInto]
  dsimp only at hparse ⊢
  split at hparse
  · cases hparse
  · next hlen =>
    rw [if_neg hlen]
    split at hparse
    · next hcode =>
      obtain ⟨huser, hseq, htype⟩ := ParsedInternalKey.mk.inj (Option.some.inj hparse)
      rw [huser, hseq, hcode, ← htype]
      rfl
    · split at hparse
      · next hcode =>
        obtain ⟨huser, hseq, htype⟩ := ParsedInternalKey.mk.inj (Option.some.inj hparse)
        rw [huser, hseq, hcode, ← htype]
        rfl
      · cases hparse

/-- The variables behind an entry, or at the start. -/
def DropState.After (st : DropState) : Option Entry → Prop
  | none => st.hasCurUserkey = false
  | some p => st.hasCurUserkey = true ∧ st.curUsrkey = p.userKey ∧ st.lastSeqkey = p.sequence

/-- One turn follows the rule on entries. -/
theorem DropState.turn_item (hsnap : smallSnap < kMaxSequenceNumber) {st : DropState}
    {prev : Option Entry} (hst : st.After prev) (he : e.sequence < 2 ^ 56)
    (hlen : 8 ≤ e.userKey.length) (hprev : ∀ p ∈ prev, 8 ≤ p.userKey.length) (i : Nat) :
    ∃ st', st.turn smallSnap (isBaseLevelForKey i) e.internalKey.Key =
        some (outdated Entry.userKey Entry.sequence Entry.isDeletion smallSnap isBaseLevelForKey i
          prev e, st') ∧ st'.After (some e) := by
  have hfresh : ¬ kMaxSequenceNumber ≤ smallSnap := Nat.not_le.mpr hsnap
  have htomb : (decide (e.type.code = Valuetype.deletion.code)) = e.isDeletion := by
    cases htype : e.type <;> simp [Entry.isDeletion, htype, Valuetype.code]
  cases prev with
  | none =>
    refine ⟨⟨⟨e.userKey, e.sequence, e.type.code⟩, e.userKey, true, e.sequence⟩, ?_, rfl, rfl, rfl⟩
    rw [turn, nextKey, parseInto_internalKey he, show st.hasCurUserkey = false from hst]
    simp [drop, outdated, shadows, hfresh, ← htomb, Bool.and_assoc]
  | some p =>
    obtain ⟨hhas, hcur, hlast⟩ := hst
    have hview : viewCmp e.userKey st.curUsrkey = some (cmp e.userKey p.userKey) := by
      rw [hcur]
      exact if_neg (by have := hprev p rfl; omega)
    by_cases hkey : p.userKey = e.userKey
    · have hcmp : cmp e.userKey p.userKey = .eq := (cmp_eq_iff hlen (hprev p rfl)).mpr hkey.symm
      refine ⟨⟨⟨e.userKey, e.sequence, e.type.code⟩, st.curUsrkey, st.hasCurUserkey, e.sequence⟩,
        ?_, hhas, hcur.trans hkey, rfl⟩
      rw [turn, nextKey, parseInto_internalKey he]
      simp only [hhas, hview, hcmp]
      by_cases hsmall : p.sequence ≤ smallSnap
      · simp [drop, outdated, shadows, hlast, hkey, hsmall]
      · simp [drop, outdated, shadows, hlast, hsmall, ← htomb, Bool.and_assoc]
    · have hcmp : cmp e.userKey p.userKey ≠ .eq := fun heq =>
        hkey ((cmp_eq_iff hlen (hprev p rfl)).mp heq).symm
      refine ⟨⟨⟨e.userKey, e.sequence, e.type.code⟩, e.userKey, true, e.sequence⟩, ?_, rfl, rfl, rfl⟩
      rw [turn, nextKey, parseInto_internalKey he]
      simp only [hhas, hview]
      simp [drop, outdated, shadows, hfresh, hkey, hcmp, ← htomb, Bool.and_assoc]

/-- The loop keeps what the rule on entries leaves. -/
theorem DropState.kept_items (hsnap : smallSnap < kMaxSequenceNumber) {stream : List Entry}
    (hseq : ∀ e ∈ stream, e.sequence < 2 ^ 56) (hlen : ∀ e ∈ stream, 8 ≤ e.userKey.length)
    {st : DropState} {prev : Option Entry} (hst : st.After prev)
    (hprev : ∀ p ∈ prev, 8 ≤ p.userKey.length) (i : Nat) :
    st.kept smallSnap isBaseLevelForKey i (stream.map Entry.item) =
      some ((survivors Entry.userKey Entry.sequence Entry.isDeletion smallSnap isBaseLevelForKey i prev
        stream).map Entry.item) := by
  induction stream generalizing st prev i with
  | nil => rfl
  | cons e es ih =>
    obtain ⟨heseq, hseq⟩ := List.forall_mem_cons.mp hseq
    obtain ⟨helen, hlen⟩ := List.forall_mem_cons.mp hlen
    obtain ⟨st', hturn, hst'⟩ :=
      @turn_item e smallSnap isBaseLevelForKey hsnap st prev hst heseq helen hprev i
    have hrest := ih hseq hlen hst' (fun p hp => Option.some.inj hp ▸ helen) (i + 1)
    rw [List.map_cons, kept, survivors]
    simp only [Entry.item, hturn, Option.bind_eq_bind, Option.bind_some]
    rw [hrest]
    split <;> rfl

/-! ## Reads at a live snapshot -/

/-- An ascending stream of internal keys is grouped by user key. -/
theorem grouped_of_ascending {stream : List Entry} (hseq : ∀ e ∈ stream, e.sequence < 2 ^ 56)
    (hasc : stream.Pairwise fun a b => cmp a.internalKey.Key b.internalKey.Key = .lt) :
    Grouped Entry.userKey Entry.sequence userKeyLt stream := by
  refine hasc.imp_of_mem fun {a b} ha hb hlt => ?_
  have hle : (InternalKey.cmp a.internalKey b.internalKey).isLE := Ordering.isLE_of_eq_lt hlt
  rw [Entry.internalKey, Entry.internalKey] at hle
  by_cases hkey : a.userKey = b.userKey
  · rw [hkey] at hle
    exact .inr ⟨hkey, InternalKey.sequence_le_of_cmp (hseq a ha) (hseq b hb) hle⟩
  · rw [InternalKey.cmp_new (hseq a ha) (hseq b hb)] at hle
    cases hcmp : compare a.userKey b.userKey with
    | lt => exact .inl hcmp
    | eq => exact absurd (Std.compare_eq_iff_eq.mp hcmp) hkey
    | gt =>
      rw [hcmp] at hle
      cases hle

/-- Leaving out what the loop drops changes no read at the smallest live snapshot or later. -/
theorem readThrough_kept {stream deeper : List Entry} {st : DropState}
    (hseq : ∀ e ∈ stream, e.sequence < 2 ^ 56)
    (hasc : stream.Pairwise fun a b => cmp a.internalKey.Key b.internalKey.Key = .lt)
    (hlen : ∀ e ∈ stream, 8 ≤ e.userKey.length) (hsnap : smallSnap < kMaxSequenceNumber)
    (hbase : ∀ i u, isBaseLevelForKey i u = true → ∀ e ∈ deeper, e.userKey ≠ u)
    (hst : st.hasCurUserkey = false) :
    ∃ out : List Entry,
      st.kept smallSnap isBaseLevelForKey 0 (stream.map Entry.item) = some (out.map Entry.item) ∧
      ∀ u s, smallSnap ≤ s → readThrough out deeper u s = readThrough stream deeper u s := by
  have hstart : st.After none := hst
  refine ⟨_, DropState.kept_items hsnap hseq hlen hstart nofun 0, fun u s hs => ?_⟩
  have hirrefl (u : Bytes) : ¬ userKeyLt u u := by
    rw [userKeyLt, Std.compare_self]
    decide
  have htrans {u u' u'' : Bytes} : userKeyLt u u' → userKeyLt u' u'' → userKeyLt u u'' :=
    TransCmp.lt_trans
  have hgrouped := grouped_of_ascending hseq hasc
  rw [readThrough, readThrough, newest_eq_find? hgrouped hirrefl,
    newest_eq_find? (hgrouped.sublist survivors_sublist) hirrefl]
  have hnoPrev : shadows Entry.userKey Entry.sequence smallSnap u none = false := rfl
  rcases find?_survivors hirrefl htrans hs hgrouped hnoPrev with
    hsame | ⟨hnone, e, he, hdead, i, hi⟩
  · rw [hsame]
  · -- the reader found a tombstone, and the deeper levels have nothing of its key
    have hdeeper : newest Entry.userKey Entry.sequence deeper u s = none := by
      have hnewest : IsNewest Entry.userKey Entry.sequence {e | e ∈ deeper} u s _ :=
        isNewest_newest deeper u s
      cases hd : newest Entry.userKey Entry.sequence deeper u s with
      | none => rfl
      | some d =>
        rw [hd] at hnewest
        exact absurd hnewest.1.2.1 (hbase i u hi d hnewest.1.1)
    have hvalue : e.type ≠ .value := by
      rw [of_decide_eq_true hdead]
      decide
    rw [hnone, hdeeper, Option.mem_def.mp he]
    exact (if_neg hvalue).symm

/-- Two versions and a tombstone of one key, and one of the next. -/
def mergedStream : List Entry :=
  [⟨[97, 1, 2, 3, 4, 5, 6, 7], 9, .value, [1]⟩, ⟨[97, 1, 2, 3, 4, 5, 6, 7], 5, .deletion, []⟩,
    ⟨[97, 1, 2, 3, 4, 5, 6, 7], 3, .value, [2]⟩, ⟨[98, 1, 2, 3, 4, 5, 6, 7], 4, .deletion, []⟩]

/-- At snapshot 6, with nothing below, the tombstones and the version behind one of them go. -/
theorem readThrough_kept_merged :
    ∃ out : List Entry,
      DropState.kept 6 (fun _ _ => true) 0 ⟨⟨[], 0, 0⟩, [], false, kMaxSequenceNumber⟩
          (mergedStream.map Entry.item) = some (out.map Entry.item) ∧
      ∀ u s, 6 ≤ s → readThrough out [] u s = readThrough mergedStream [] u s :=
  readThrough_kept (by decide) (by decide +kernel) (by decide) (by decide)
    (fun _ _ _ _ he => absurd he List.not_mem_nil) rfl

example : DropState.kept 6 (fun _ _ => true) 0 ⟨⟨[], 0, 0⟩, [], false, kMaxSequenceNumber⟩
    (mergedStream.map Entry.item) = some ((mergedStream.take 1).map Entry.item) := by
  decide +kernel

end Yubindb
