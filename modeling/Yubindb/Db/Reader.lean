import Yubindb.Db.Walog

/-!
# The log reader

`src/db/reader.h`, `src/db/reader.cpp`. A call that leaves `ReadPhysicalRecord` through its `break`
runs off the end of a function that must return a value; such a call has no result here.
-/

namespace Yubindb
open ByteCodec

/-- `Reader`. -/
structure Reader where
  file : ReadFile
  checksum : Bool
  backingStore : Bytes
  eof : Bool
  lastRecordOffset : Nat
  endOfBufferOffset : Nat
  initialOffset : Nat
  deriving DecidableEq, Repr

namespace Reader

/-- `Reader::Reader`. -/
def new (file : ReadFile) (checksum : Bool) (initialOffset : Nat) : Reader :=
  ⟨file, checksum, [], false, 0, 0, initialOffset⟩

/-- `kEof`, `kBadRecord`: the values next to the record types. -/
def kEof : Nat := RecordType.last.code + 1
def kBadRecord : Nat := RecordType.last.code + 2

/-- `Reader::SkipToInitialBlock`, where the seek succeeds. -/
def skipToInitialBlock (r : Reader) : Reader :=
  let offsetInBlock := r.initialOffset % kBlockSize
  let start := r.initialOffset - offsetInBlock
  let start := if offsetInBlock > kBlockSize - 6 then start + kBlockSize else start
  { r with
    endOfBufferOffset := start
    file := if start > 0 then r.file.skip start else r.file }

/-- A `char` of the header read as an `unsigned int`: the sign is extended. -/
def unsignedOfChar (b : UInt8) : Nat := if b.toNat < 128 then b.toNat else 2 ^ 32 - 256 + b.toNat

/-- The part of `ReadPhysicalRecord` behind the refill: at least `kHeaderSize` bytes are in
`backing_store_`. Gives the returned type, the `*result` and the reader. -/
def parseHeader (C : Crc32c) (r : Reader) (result : Bytes) : Nat × Bytes × Reader :=
  let header := r.backingStore
  let a := (header.getD 4 0).toNat &&& 0xff
  let b := (header.getD 5 0).toNat &&& 0xff
  let type := unsignedOfChar (header.getD 6 0)
  let length := a ||| (b <<< 8)
  if kHeaderSize + length > header.length then
    if !r.eof then (kBadRecord, result, { r with backingStore := [] })
    else (kEof, result, { r with backingStore := [] })
  else if type = RecordType.zero.code ∧ length = 0 then
    (kBadRecord, result, { r with backingStore := [] })
  else if r.checksum ∧
      (C.crc32c ((header.drop 6).take (1 + length))).toNat ≠ decodeFixed32 header then
    (kBadRecord, result, { r with backingStore := [] })
  else
    (type, (header.drop kHeaderSize).take length,
      { r with backingStore := header.drop (kHeaderSize + length) })

/-- The refill in `ReadPhysicalRecord`: one `Read` of a block, which ends the file when it is
short. -/
def refill (r : Reader) : Reader :=
  let (data, file) := r.file.read kBlockSize
  { r with
    file
    backingStore := data
    endOfBufferOffset := r.endOfBufferOffset + data.length
    eof := decide (data.length < kBlockSize) }

/-- `Reader::ReadPhysicalRecord`, from the value `result` that `*result` has at the call. The loop
is left through `break` when `Read` gives nothing before the end of file has been noticed. -/
def readPhysicalRecord (C : Crc32c) (r : Reader) (result : Bytes) : Option (Nat × Bytes × Reader) :=
  if r.backingStore.length < kHeaderSize then
    if !r.eof then
      if _h : (r.file.read kBlockSize).1.length = 0 then none
      else readPhysicalRecord C r.refill result
    else some (kEof, result, { r with backingStore := [] })
  else some (parseHeader C r result)
termination_by r.file.rest.length
decreasing_by
  simp only [refill, ReadFile.read, List.length_take, List.length_drop, kBlockSize_eq] at _h ⊢
  omega

/-- `Reader::ReadRecord`: the returned flag, `*str` and the reader. The body of its `while` ends in
`return false`, so the switch runs once. -/
def readRecord (C : Crc32c) (r : Reader) : Option (Bool × Bytes × Reader) :=
  let r := if r.lastRecordOffset < r.initialOffset then r.skipToInitialBlock else r
  match readPhysicalRecord C r [] with
  | none => none
  | some (recordType, frame, r) =>
    let physicalRecordoff := r.endOfBufferOffset - r.backingStore.length - frame.length
    if recordType = RecordType.full.code then
      some (true, frame, { r with lastRecordOffset := physicalRecordoff })
    else if recordType = RecordType.first.code then some (false, frame, r)
    -- `in_fragmented_record` is still false in every other case
    else some (false, [], r)

/-- Calling `ReadRecord` until it returns false: the records it returned on the way. -/
def readRecords (C : Crc32c) (r : Reader) : Option (List Bytes) := do
  let (more, str, r) ← readRecord C r
  if more then
    let records ← r |>.readRecords C
    some (str :: records)
  else some []
partial_fixpoint

/-- The results of `n` successive calls of `ReadPhysicalRecord`, and the reader after them. -/
def readPhysicals (C : Crc32c) : Nat → Reader → Option (List (Nat × Bytes) × Reader)
  | 0, r => some ([], r)
  | n + 1, r => do
    let (type, frame, r) ← readPhysicalRecord C r []
    let (results, r) ← readPhysicals C n r
    some ((type, frame) :: results, r)

/-! ## The branches of `ReadPhysicalRecord` -/

variable {C : Crc32c} {r : Reader} {result : Bytes}

theorem readPhysicalRecord_none (hshort : r.backingStore.length < kHeaderSize)
    (heof : (!r.eof) = true) (hread : (r.file.read kBlockSize).1.length = 0) :
    readPhysicalRecord C r result = none := by
  rw [readPhysicalRecord, if_pos hshort, if_pos heof, dif_pos hread]

theorem readPhysicalRecord_refill (hshort : r.backingStore.length < kHeaderSize)
    (heof : (!r.eof) = true) (hread : ¬ (r.file.read kBlockSize).1.length = 0) :
    readPhysicalRecord C r result = readPhysicalRecord C r.refill result := by
  conv_lhs => rw [readPhysicalRecord, if_pos hshort, if_pos heof, dif_neg hread]

theorem readPhysicalRecord_eof (hshort : r.backingStore.length < kHeaderSize)
    (heof : ¬ (!r.eof) = true) :
    readPhysicalRecord C r result = some (kEof, result, { r with backingStore := [] }) := by
  rw [readPhysicalRecord, if_pos hshort, if_neg heof]

theorem readPhysicalRecord_header (hlong : ¬ r.backingStore.length < kHeaderSize) :
    readPhysicalRecord C r result = some (parseHeader C r result) := by
  rw [readPhysicalRecord, if_neg hlong]

/-- A call ends at the end of the file or with the header of a reader behind its refills. -/
theorem of_readPhysicalRecord {Q : Reader → Prop} {P : Nat → Bytes → Reader → Prop}
    {type : Nat} {frame : Bytes} {r' : Reader} (hrefill : ∀ r, Q r → Q r.refill)
    (hend : ∀ r, Q r → P kEof result { r with backingStore := [] })
    (hheader : ∀ r, Q r → kHeaderSize ≤ r.backingStore.length → ∀ {type frame r'},
      parseHeader C r result = (type, frame, r') → P type frame r')
    (hr : Q r) (h : readPhysicalRecord C r result = some (type, frame, r')) : P type frame r' := by
  induction r using readPhysicalRecord.induct with
  | case1 r hshort heof hread =>
    rw [readPhysicalRecord_none hshort heof hread] at h
    cases h
  | case2 r hshort heof hread ih =>
    rw [readPhysicalRecord_refill hshort heof hread] at h
    exact ih (hrefill r hr) h
  | case3 r hshort heof =>
    rw [readPhysicalRecord_eof hshort heof] at h
    cases h
    exact hend r hr
  | case4 r hlong =>
    rw [readPhysicalRecord_header hlong] at h
    exact hheader r hr (Nat.le_of_not_lt hlong) (Option.some.inj h)

end Reader
end Yubindb
