import Yubindb.Db.Iterator

/-!
# Blocks

`src/db/block.h`, `src/db/block.cpp`: the builder of a block of sorted entries, whose keys drop the
prefix that they share with the key before them, and the iterator over the finished block. Every
`block_restart_interval` entries a restart point starts afresh with a whole key.
-/

namespace Yubindb

/-! ## The builder -/

/-- `Blockbuilder`. -/
structure Blockbuilder where
  buffer : Bytes := []
  restarts : List ℕ := [0]
  entrynum : ℕ := 0
  lastKey : Bytes := []
  deriving DecidableEq, Repr

/-- The loop that counts the bytes at the front that two keys share. -/
def sharedLength : Bytes → Bytes → ℕ
  | a :: as, b :: bs => if a = b then sharedLength as bs + 1 else 0
  | _, _ => 0

namespace Blockbuilder

/-- `empty`. -/
def empty (b : Blockbuilder) : Bool := b.buffer.isEmpty

/-- `CurrentSizeEstimate`. -/
def currentSizeEstimate (b : Blockbuilder) : ℕ := b.buffer.length + b.restarts.length * 4 + 4

/-- `Reset`. -/
def reset : Blockbuilder := {}

/-- `Add`, of a block with the restart interval `R`. -/
def add (R : ℕ) (b : Blockbuilder) (key value : Bytes) : Blockbuilder :=
  let more := b.entrynum < R
  let shared := if more then sharedLength b.lastKey key else 0
  let restarts := if more then b.restarts else b.restarts ++ [b.buffer.length % 2 ^ 32]
  let entrynum := if more then b.entrynum else 0
  let nonShared := key.length - shared
  { buffer := b.buffer ++ (putVarint32 shared ++ putVarint32 nonShared ++
      putVarint32 value.length ++ key.drop shared ++ value)
    restarts
    entrynum := entrynum + 1
    lastKey := b.lastKey.take shared ++ key.drop shared }

/-- `Finish`. -/
def finish (b : Blockbuilder) : Bytes :=
  b.buffer ++ b.restarts.flatMap encodeFixed32 ++ encodeFixed32 b.restarts.length

/-- The builder behind a sequence of `Add`. -/
def build (R : ℕ) (es : List (Bytes × Bytes)) : Blockbuilder :=
  es.foldl (fun b e => b.add R e.1 e.2) {}

end Blockbuilder

/-! ## Entries -/

/-- The three calls of `GetVarint32Ptr`. -/
def decodeVarints (p : Bytes) : Option (ℕ × ℕ × ℕ × Bytes) := do
  let (shared, p) ← getVarint32Ptr p
  let (nonShared, p) ← getVarint32Ptr p
  let (valueLength, p) ← getVarint32Ptr p
  return (shared, nonShared, valueLength, p)

/-- The lengths in front of an entry, with the path for three single bytes. -/
def decodeLengths (p : Bytes) : Option (ℕ × ℕ × ℕ × Bytes) :=
  match p with
  | b₀ :: b₁ :: b₂ :: rest =>
    if b₀.toNat ||| b₁.toNat ||| b₂.toNat < 128 then some (b₀.toNat, b₁.toNat, b₂.toNat, rest)
    else decodeVarints p
  | _ => none

/-- `Block::DecodeEntry`, of the bytes from `p` up to `limit`: `shared`, `non_shared`, `value_length`
and what is behind them. -/
def decodeEntry (p : Bytes) : Option (ℕ × ℕ × ℕ × Bytes) := do
  let (shared, nonShared, valueLength, p) ← decodeLengths p
  if p.length % 2 ^ 32 < (nonShared + valueLength) % 2 ^ 32 then none
  else return (shared, nonShared, valueLength, p)

theorem length_of_decodeVarints {p rest : Bytes} {shared nonShared valueLength : ℕ}
    (h : decodeVarints p = some (shared, nonShared, valueLength, rest)) : rest.length < p.length := by
  obtain ⟨⟨a, p₁⟩, h₁, h⟩ := Option.bind_eq_some_iff.mp h
  obtain ⟨⟨b, p₂⟩, h₂, h⟩ := Option.bind_eq_some_iff.mp h
  obtain ⟨⟨c, p₃⟩, h₃, h⟩ := Option.bind_eq_some_iff.mp h
  cases h
  exact ((length_of_getVarint32 h₃).trans (length_of_getVarint32 h₂)).trans (length_of_getVarint32 h₁)

theorem length_of_decodeLengths {p rest : Bytes} {shared nonShared valueLength : ℕ}
    (h : decodeLengths p = some (shared, nonShared, valueLength, rest)) : rest.length < p.length := by
  match p, h with
  | b₀ :: b₁ :: b₂ :: tail, h =>
    rw [decodeLengths] at h
    split at h
    · cases h
      simp only [List.length_cons]
      omega
    · exact length_of_decodeVarints h

theorem length_of_decodeEntry {p rest : Bytes} {shared nonShared valueLength : ℕ}
    (h : decodeEntry p = some (shared, nonShared, valueLength, rest)) : rest.length < p.length := by
  obtain ⟨⟨a, b, c, p'⟩, hlengths, h⟩ := Option.bind_eq_some_iff.mp h
  dsimp only at h
  split at h
  · cases h
  · cases h
    exact length_of_decodeLengths hlengths

/-! ## The iterator -/

/-- `Block::Iter`. The view `value_` is its offset in the data and its bytes. -/
structure BlockIter where
  data : Bytes
  restarts : ℕ
  numRestarts : ℕ
  current : ℕ
  restartIndex : ℕ
  key : Bytes := []
  valueOffset : ℕ := 0
  value : Bytes := []
  deriving DecidableEq, Repr

namespace BlockIter

/-- `Iter::Iter`. -/
def new (data : Bytes) (restarts numRestarts : ℕ) : BlockIter where
  data := data
  restarts := restarts
  numRestarts := numRestarts
  current := restarts
  restartIndex := numRestarts

/-- `NextEntryOffset`. -/
def nextEntryOffset (it : BlockIter) : ℕ := it.valueOffset + it.value.length

/-- `GetRestartPoint`. -/
def getRestartPoint (it : BlockIter) (index : ℕ) : ℕ :=
  decodeFixed32 (it.data.drop (it.restarts + index * 4))

/-- `SeekToRestartPoint`. -/
def seekToRestartPoint (it : BlockIter) (index : ℕ) : BlockIter :=
  { it with
    key := []
    restartIndex := index
    valueOffset := it.getRestartPoint index
    value := [] }

/-- The bytes from an offset up to the restart points. -/
def entriesFrom (it : BlockIter) (offset : ℕ) : Bytes := (it.data.take it.restarts).drop offset

/-- The loop at the end of `ParseNextKey`. -/
def advanceIndex (it : BlockIter) (current index : ℕ) : ℕ :=
  if index + 1 < it.numRestarts ∧ it.getRestartPoint (index + 1) < current then
    it.advanceIndex current (index + 1)
  else index
termination_by it.numRestarts - index

/-- `ParseNextKey`. -/
def parseNextKey (it : BlockIter) : Bool × BlockIter :=
  let current := it.nextEntryOffset
  if it.restarts ≤ current then
    (false, { it with current := it.restarts, restartIndex := it.numRestarts })
  else
    match decodeEntry (it.entriesFrom current) with
    | some (shared, nonShared, valueLength, p) =>
      if it.key.length < shared then (false, { it with current, key := [] })
      else
        (true, { it with
          current
          restartIndex := it.advanceIndex current it.restartIndex
          key := it.key.take shared ++ p.take nonShared
          valueOffset := it.restarts - p.length + nonShared
          value := (p.drop nonShared).take valueLength })
    | none => (false, { it with current, key := [] })

theorem nextEntryOffset_of_parseNextKey {it it' : BlockIter} (h : it.parseNextKey = (true, it')) :
    it'.restarts - it'.nextEntryOffset < it.restarts - it.nextEntryOffset := by
  rw [parseNextKey] at h
  split at h
  · cases h
  · next hlt =>
    split at h
    · next hentry =>
      have hlen := length_of_decodeEntry hentry
      rw [entriesFrom, List.length_drop, List.length_take] at hlen
      split at h
      · cases h
      · cases h
        simp only [nextEntryOffset] at hlt hlen ⊢
        omega
    · cases h

/-- `do { } while (ParseNextKey() && ...)`. -/
def parseWhile (again : BlockIter → Bool) (it : BlockIter) : BlockIter :=
  match _h : it.parseNextKey with
  | (true, it') => if again it' then it'.parseWhile again else it'
  | (false, it') => it'
termination_by it.restarts - it.nextEntryOffset
decreasing_by exact nextEntryOffset_of_parseNextKey _h

/-- `SeekToFirst`. -/
def seekToFirst (it : BlockIter) : BlockIter := (it.seekToRestartPoint 0).parseNextKey.2

/-- `SeekToLast`. -/
def seekToLast (it : BlockIter) : BlockIter :=
  (it.seekToRestartPoint (it.numRestarts - 1)).parseWhile fun it =>
    it.nextEntryOffset < it.restarts

/-- The binary search of `Seek`, and whether it met a bad entry. -/
def searchRestarts (it : BlockIter) (target : Bytes) (left right : ℕ) : Option ℕ :=
  if left < right then
    let mid := (left + right + 1) / 2
    match decodeEntry (it.entriesFrom (it.getRestartPoint mid)) with
    | some (shared, nonShared, _, keyPtr) =>
      if shared ≠ 0 then none
      else if cmp (keyPtr.take nonShared) target = .lt then it.searchRestarts target mid right
      else it.searchRestarts target left (mid - 1)
    | none => none
  else some left
termination_by right - left

/-- `Seek`. -/
def seek (target : Bytes) (it : BlockIter) : BlockIter :=
  match it.searchRestarts target 0 (it.numRestarts - 1) with
  | some left => (it.seekToRestartPoint left).parseWhile fun it => cmp it.key target = .lt
  | none => it

/-- `Next`. -/
def next (it : BlockIter) : BlockIter := it.parseNextKey.2

/-- The loop of `Prev` that looks for a restart point in front of an offset. -/
def restartBefore (it : BlockIter) (offset : ℕ) : ℕ → Option ℕ
  | 0 => if it.getRestartPoint 0 ≥ offset then none else some 0
  | index + 1 =>
    if it.getRestartPoint (index + 1) ≥ offset then it.restartBefore offset index
    else some (index + 1)

/-- `Prev`. -/
def prev (it : BlockIter) : BlockIter :=
  match it.restartBefore it.current it.restartIndex with
  | some index => (it.seekToRestartPoint index).parseWhile fun it' =>
      it'.nextEntryOffset < it.current
  | none => { it with current := it.restarts, restartIndex := it.numRestarts }

/-- `Block::Iter` as an iterator. -/
def iterator : Iterator BlockIter where
  valid it := it.current < it.restarts
  key it := it.key
  value it := it.value
  move
    | .seekToFirst, it => some it.seekToFirst
    | .seekToLast, it => some it.seekToLast
    | .seek target, it => some (it.seek target)
    | .next, it => some it.next
    | .prev, it => some it.prev

end BlockIter

/-! ## Finished blocks -/

/-- `Block`. -/
structure Block where
  data : Bytes
  size : ℕ
  restartOffset : ℕ := 0
  deriving DecidableEq, Repr

namespace Block

/-- `NumRestarts`. -/
def numRestarts (b : Block) : ℕ := decodeFixed32 (b.data.drop (b.size - 4))

/-- `Block::Block`. The count of the restart points and `restart_offset_` are of 32 bits. -/
def new (data : Bytes) : Block :=
  let b : Block := { data, size := data.length }
  if b.size < 4 then { b with size := 0 }
  else if b.numRestarts > (b.size - 4) / 4 then { b with size := 0 }
  else { b with restartOffset := (b.size - (1 + b.numRestarts) % 2 ^ 32 * 4) % 2 ^ 32 }

/-- `NewIterator`. -/
def newIterator (b : Block) : Option BlockIter :=
  if b.size < 4 then none
  else if b.numRestarts > 0 then some (.new b.data b.restartOffset b.numRestarts)
  else none

end Block
end Yubindb
