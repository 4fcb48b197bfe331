import Yubindb.Db.Reader
import Yubindb.Theory.Fragments

/-!
# What a log reader returns

`Reader::ReadPhysicalRecord` and `Reader::ReadRecord` in `src/db/reader.cpp`, over files of any
length and over any sequence of physical records.
-/

namespace Yubindb
open ByteCodec

namespace Reader
variable {C : Crc32c} {r r' : Reader} {result : Bytes}

/-! ## Physical records

The same functions once more, with a result only where every byte that is read lies in
`backing_store_`. -/

/-- `n` bytes of a string from `i` on. -/
def bytesIn (s : Bytes) (i n : Nat) : Option Bytes :=
  if i + n ≤ s.length then some ((s.drop i).take n) else none

/-- `parseHeader`. -/
def parseHeaderIn (C : Crc32c) (r : Reader) (result : Bytes) : Option (Nat × Bytes × Reader) := do
  let header := r.backingStore
  let a ← header[4]?
  let b ← header[5]?
  let type ← header[6]?
  let length := (a.toNat &&& 0xff) ||| ((b.toNat &&& 0xff) <<< 8)
  if kHeaderSize + length > header.length then
    if !r.eof then some (kBadRecord, result, { r with backingStore := [] })
    else some (kEof, result, { r with backingStore := [] })
  else if unsignedOfChar type = RecordType.zero.code ∧ length = 0 then
    some (kBadRecord, result, { r with backingStore := [] })
  else
    let intact ←
      if r.checksum then do
        let expectedCrc ← bytesIn header 0 4
        let checked ← bytesIn header 6 (1 + length)
        some (decide ((C.crc32c checked).toNat = decodeFixed32 expectedCrc))
      else some true
    if !intact then some (kBadRecord, result, { r with backingStore := [] })
    else
      let frame ← bytesIn header kHeaderSize length
      let rest ← bytesIn header (kHeaderSize + length) (header.length - kHeaderSize - length)
      some (unsignedOfChar type, frame, { r with backingStore := rest })

/-- `readPhysicalRecord`. -/
def readPhysicalRecordIn (C : Crc32c) (r : Reader) (result : Bytes) :
    Option (Nat × Bytes × Reader) :=
  if r.backingStore.length < kHeaderSize then
    if !r.eof then
      if _h : (r.file.read kBlockSize).1.length = 0 then none
      else readPhysicalRecordIn C r.refill result
    else some (kEof, result, { r with backingStore := [] })
  else parseHeaderIn C r result
termination_by r.file.rest.length
decreasing_by
  simp only [refill, ReadFile.read, List.length_take, List.length_drop, kBlockSize_eq] at _h ⊢
  omega

theorem bytesIn_of_le {s : Bytes} {i n : Nat} (h : i + n ≤ s.length) :
    bytesIn s i n = some ((s.drop i).take n) := if_pos h

theorem parseHeaderIn_eq (h : kHeaderSize ≤ r.backingStore.length) :
    parseHeaderIn C r result = some (parseHeader C r result) := by
  rw [kHeaderSize_eq] at h
  have hget (i : Nat) (hi : i < 7) : r.backingStore[i]? = some (r.backingStore.getD i 0) := by
    rw [List.getD_eq_getElem _ _ (by omega), List.getElem?_eq_getElem]
  simp only [parseHeaderIn, parseHeader, hget 4, hget 5, hget 6, Nat.reduceLT, Option.bind_eq_bind,
    Option.bind_some]
  set length := ((r.backingStore.getD 4 0).toNat &&& 0xff) |||
    (((r.backingStore.getD 5 0).toNat &&& 0xff) <<< 8)
  split
  · split <;> rfl
  next hlength =>
  have hlength := Nat.le_of_not_lt hlength
  rw [kHeaderSize_eq] at hlength
  split
  · rfl
  have hframe : bytesIn r.backingStore kHeaderSize length =
      some ((r.backingStore.drop kHeaderSize).take length) := bytesIn_of_le hlength
  have hrest : bytesIn r.backingStore (kHeaderSize + length)
      (r.backingStore.length - kHeaderSize - length) =
        some (r.backingStore.drop (kHeaderSize + length)) := by
    rw [bytesIn_of_le (by rw [kHeaderSize_eq]; omega), List.take_of_length_le]
    rw [List.length_drop, Nat.sub_sub]
  rw [hframe, hrest]
  cases hchecksum : r.checksum with
  | false => simp
  | true =>
    have hcrc : decodeFixed32 ((r.backingStore.drop 0).take 4) = decodeFixed32 r.backingStore := by
      simp [decodeFixed32, List.take_take]
    have hexpected := bytesIn_of_le (s := r.backingStore) (i := 0) (n := 4) (by omega)
    have hchecked := bytesIn_of_le (s := r.backingStore) (i := 6) (n := 1 + length) (by omega)
    simp only [hexpected, hchecked, hcrc, if_true, Option.bind_some, Bool.not_eq_true',
      decide_eq_false_iff_not, ne_eq, true_and]
    split <;> rfl

/-- Every call that returns stays inside `backing_store_`. -/
theorem readPhysicalRecordIn_eq (C : Crc32c) (r : Reader) (result : Bytes) :
    readPhysicalRecordIn C r result = readPhysicalRecord C r result := by
  induction r using readPhysicalRecord.induct with
  | case1 r hshort heof hread =>
    rw [readPhysicalRecord_none hshort heof hread, readPhysicalRecordIn, if_pos hshort,
      if_pos heof, dif_pos hread]
  | case2 r hshort heof hread ih =>
    rw [readPhysicalRecord_refill hshort heof hread, readPhysicalRecordIn, if_pos hshort,
      if_pos heof, dif_neg hread, ih]
  | case3 r hshort heof =>
    rw [readPhysicalRecord_eof hshort heof, readPhysicalRecordIn, if_pos hshort, if_neg heof]
  | case4 r hlong =>
    rw [readPhysicalRecord_header hlong, readPhysicalRecordIn, if_neg hlong]
    exact parseHeaderIn_eq (Nat.le_of_not_lt hlong)

/-- The result of the call of `ReadPhysicalRecord` behind `n` others; `frame` in `ReadRecord` is
empty at each. -/
def physicalCall (C : Crc32c) : Nat → Reader → Option (Nat × Bytes × Reader)
  | 0, r => readPhysicalRecordIn C r []
  | n + 1, r => (readPhysicalRecordIn C r []).bind fun (_, _, r) => physicalCall C n r

/-- Every call returns and stays inside `backing_store_`, and from some call on all give `kEof`. -/
def ReadsTotally (C : Crc32c) (r : Reader) : Prop :=
  (∀ n, (physicalCall C n r).isSome) ∧
    ∃ n, ∀ m ≥ n, ∃ frame r', physicalCall C m r = some (kEof, frame, r')

/-- The reader notices the end of the file: the last block is not a whole one. -/
def NoticesEnd (r : Reader) : Prop := r.eof = false → r.file.rest.length % kBlockSize ≠ 0

/-- What the reader has still to go through. -/
def remaining (r : Reader) : Nat := r.file.rest.length + r.backingStore.length

theorem readsTotally_of_call {type : Nat} {frame : Bytes}
    (h : readPhysicalRecord C r [] = some (type, frame, r')) :
    ReadsTotally C r ↔ ReadsTotally C r' := by
  have hcall (n : Nat) : physicalCall C (n + 1) r = physicalCall C n r' := by
    rw [physicalCall, readPhysicalRecordIn_eq, h, Option.bind_some]
  constructor
  · rintro ⟨hsome, n, hend⟩
    exact ⟨fun m => hcall m ▸ hsome (m + 1), n, fun m hm => hcall m ▸ hend (m + 1) (by omega)⟩
  · rintro ⟨hsome, n, hend⟩
    refine ⟨fun m => ?_, n + 1, fun m hm => ?_⟩
    · cases m with
      | zero => rw [physicalCall, readPhysicalRecordIn_eq, h]; rfl
      | succ m => exact hcall m ▸ hsome m
    · obtain ⟨m, rfl⟩ := Nat.exists_eq_add_of_le' (show 1 ≤ m by omega)
      exact hcall m ▸ hend m (by omega)

/-- A header takes something out of `backing_store_` and changes nothing else. -/
theorem parseHeader_reader (C : Crc32c) (result : Bytes) (h : kHeaderSize ≤ r.backingStore.length) :
    ∃ type frame backing,
      parseHeader C r result = (type, frame, { r with backingStore := backing }) ∧
        backing.length < r.backingStore.length := by
  rw [kHeaderSize_eq] at h
  have hempty : ([] : Bytes).length < r.backingStore.length := Nat.lt_of_lt_of_le (by decide) h
  rw [parseHeader]
  split
  · split <;> exact ⟨_, _, [], rfl, hempty⟩
  split
  · exact ⟨_, _, [], rfl, hempty⟩
  split
  · exact ⟨_, _, [], rfl, hempty⟩
  · refine ⟨_, _, _, rfl, ?_⟩
    rw [List.length_drop, kHeaderSize_eq]
    omega

/-- A refill that gets something. -/
theorem refill_remaining (heof : r.eof = false) (hread : (r.file.read kBlockSize).1.length ≠ 0) :
    r.refill.remaining ≤ r.remaining ∧ 0 < r.remaining ∧
      (r.refill.eof = true → r.refill.file.rest = []) ∧ (r.refill.NoticesEnd ↔ r.NoticesEnd) := by
  simp only [ReadFile.read, List.length_take, kBlockSize_eq] at hread
  simp only [remaining, NoticesEnd, refill, ReadFile.read, List.length_take, List.length_drop,
    kBlockSize_eq, heof, decide_eq_true_eq, decide_eq_false_iff_not, List.drop_eq_nil_iff,
    true_imp_iff]
  refine ⟨by omega, by omega, fun hlt => by omega, ?_⟩
  constructor <;> intro hnotice <;> omega

/-- A call of `ReadPhysicalRecord` falls off its end, or ends the file, or goes on in it. -/
theorem readPhysicalRecord_cases (C : Crc32c) (r : Reader) (result : Bytes) :
    (readPhysicalRecord C r result = none ∧ ¬ r.NoticesEnd) ∨
    (r.eof = true ∧
      readPhysicalRecord C r result = some (kEof, result, { r with backingStore := [] })) ∨
    ∃ type frame r', readPhysicalRecord C r result = some (type, frame, r') ∧
      r'.remaining < r.remaining ∧ (r'.NoticesEnd ↔ r.NoticesEnd) := by
  induction r using readPhysicalRecord.induct with
  | case1 r hshort heof hread =>
    refine .inl ⟨readPhysicalRecord_none hshort heof hread, fun hnotice => ?_⟩
    have hzero : r.file.rest.length = 0 := by
      rw [ReadFile.read, List.length_take, kBlockSize_eq] at hread
      omega
    exact hnotice (by simpa using heof) (by rw [hzero, Nat.zero_mod])
  | case2 r hshort heof hread ih =>
    obtain ⟨hle, hpos, hend, hnotices⟩ := refill_remaining (by simpa using heof) hread
    rw [readPhysicalRecord_refill hshort heof hread]
    rcases ih with ⟨hnone, hno⟩ | ⟨heof', hsome⟩ | ⟨type, frame, r', hsome, hlt, hiff⟩
    · exact .inl ⟨hnone, fun h => hno (hnotices.mpr h)⟩
    · refine .inr (.inr ⟨_, _, _, hsome, ?_, ?_⟩)
      · rw [remaining, hend heof']
        exact hpos
      · exact hnotices
    · exact .inr (.inr ⟨type, frame, r', hsome, hlt.trans_le hle, hiff.trans hnotices⟩)
  | case3 r hshort heof =>
    exact .inr (.inl ⟨by simpa using heof, readPhysicalRecord_eof hshort heof⟩)
  | case4 r hlong =>
    obtain ⟨type, frame, backing, hparse, hlt⟩ :=
      parseHeader_reader C result (Nat.le_of_not_lt hlong)
    refine .inr (.inr ⟨type, frame, { r with backingStore := backing }, ?_,
      Nat.add_lt_add_left hlt _, Iff.rfl⟩)
    rw [readPhysicalRecord_header hlong, hparse]

/-- Behind the end of the file every call gives `kEof`. -/
theorem readsTotally_ended (heof : r.eof = true) (hback : r.backingStore = []) :
    ReadsTotally C r := by
  have hcall : readPhysicalRecordIn C r [] = some (kEof, [], r) := by
    obtain ⟨file, checksum, _, _, lastRecordOffset, endOfBufferOffset, initialOffset⟩ := r
    cases heof
    cases hback
    rw [readPhysicalRecordIn]
    rfl
  have hall (n : Nat) : physicalCall C n r = some (kEof, [], r) := by
    induction n with
    | zero => exact hcall
    | succ n ih =>
      rw [physicalCall, hcall, Option.bind_some]
      exact ih
  exact ⟨fun n => by rw [hall]; rfl, 0, fun m _ => ⟨[], r, hall m⟩⟩

theorem readsTotally_iff_noticesEnd (C : Crc32c) (r : Reader) :
    ReadsTotally C r ↔ r.NoticesEnd := by
  induction hn : r.remaining using Nat.strong_induction_on generalizing r with
  | h n ih =>
    subst hn
    rcases readPhysicalRecord_cases C r [] with ⟨hnone, hno⟩ | ⟨heof, hsome⟩ |
      ⟨type, frame, r', hsome, hlt, hiff⟩
    · refine iff_of_false (fun htotal => ?_) hno
      have hfirst := htotal.1 0
      rw [physicalCall, readPhysicalRecordIn_eq, hnone] at hfirst
      cases hfirst
    · refine iff_of_true ((readsTotally_of_call hsome).mpr (readsTotally_ended heof rfl)) ?_
      intro hno
      exact absurd (heof.symm.trans hno) (by decide)
    · exact (readsTotally_of_call hsome).trans ((ih _ hlt r' rfl).trans hiff)

/-- Reading is total for exactly the files that do not end with a whole block. -/
theorem readsTotally_iff (C : Crc32c) (contents : Bytes) (checksum : Bool) (initialOffset : Nat) :
    ReadsTotally C (new ⟨contents⟩ checksum initialOffset) ↔
      contents.length % kBlockSize ≠ 0 := by
  rw [readsTotally_iff_noticesEnd]
  exact ⟨fun hnotice => hnotice rfl, fun hlength _ => hlength⟩

/-- The first call on an empty file does not return. -/
theorem not_readsTotally_empty : ¬ ReadsTotally .castagnoli (new ⟨[]⟩ true 0) := by
  intro htotal
  have hfirst := htotal.1 0
  rw [physicalCall, readPhysicalRecordIn] at hfirst
  cases hfirst

/-! ## Records

`ReadRecord` over any source of physical records. -/

theorem kEof_ne_full : kEof ≠ RecordType.full.code := by decide

/-- How the `switch` of `ReadRecord` is left: by a `return`, with the flag and `*str`, or by a
`break`, with `in_fragmented_record` and `*str`. -/
inductive SwitchExit
  | ret (more : Bool) (str : Bytes)
  | brk (inFragmentedRecord : Bool) (str : Bytes)
  deriving DecidableEq, Repr

def recordSwitch (recordType : Nat) (frame : Bytes) (inFragmentedRecord : Bool) (str : Bytes) :
    SwitchExit :=
  if recordType = RecordType.full.code then .ret true frame
  else if recordType = RecordType.first.code then .brk true frame
  else if recordType = RecordType.middle.code then
    .brk inFragmentedRecord (if inFragmentedRecord then str ++ frame else str)
  else if recordType = RecordType.last.code then
    if inFragmentedRecord then .ret true (str ++ frame) else .brk inFragmentedRecord str
  else if recordType = kEof then .ret false (if inFragmentedRecord then [] else str)
  else if recordType = kBadRecord then .brk false (if inFragmentedRecord then [] else str)
  else .brk false []

/-- A source of physical records: what `ReadPhysicalRecord` gives. -/
structure PhysicalSource (S : Type*) where
  next : S → Option (Nat × Bytes × S)

namespace PhysicalSource
variable {S : Type*}

/-- `Reader::ReadRecord` without `SkipToInitialBlock`. -/
def readRecord (physical : PhysicalSource S) (s : S) : Option (Bool × Bytes × S) := do
  let (recordType, frame, s) ← physical.next s
  match recordSwitch recordType frame false [] with
  | .ret more str => some (more, str, s)
  -- `return false` behind the `switch`, inside the loop
  | .brk _ str => some (false, str, s)

/-- Calling `ReadRecord` until it returns false: the records, and what has not been read. -/
def readRecords (physical : PhysicalSource S) (s : S) : Option (List Bytes × S) := do
  let (more, str, s) ← physical.readRecord s
  if more then
    let (records, s) ← physical |>.readRecords s
    some (str :: records, s)
  else some ([], s)
partial_fixpoint

end PhysicalSource

theorem recordSwitch_of_ne {type : Nat} {frame : Bytes} (htype : type ≠ RecordType.full.code) :
    recordSwitch type frame false [] =
        .ret false (if type = RecordType.first.code then frame else []) ∨
      ∃ inFragmentedRecord, recordSwitch type frame false [] =
        .brk inFragmentedRecord (if type = RecordType.first.code then frame else []) := by
  rw [recordSwitch, if_neg htype]
  by_cases hfirst : type = RecordType.first.code
  · rw [if_pos hfirst, if_pos hfirst]
    exact .inr ⟨true, rfl⟩
  rw [if_neg hfirst, if_neg hfirst]
  split
  · exact .inr ⟨false, rfl⟩
  split
  · exact .inr ⟨false, rfl⟩
  split
  · exact .inl rfl
  split
  · exact .inr ⟨false, rfl⟩
  · exact .inr ⟨false, rfl⟩

namespace PhysicalSource
variable {S : Type*} {physical : PhysicalSource S} {s s' : S} {frame : Bytes}

theorem readRecord_full (h : physical.next s = some (RecordType.full.code, frame, s')) :
    physical.readRecord s = some (true, frame, s') := by
  rw [readRecord, h]
  rfl

/-- Every other physical record is the last one that a call reads. -/
theorem readRecord_of_ne {type : Nat} (h : physical.next s = some (type, frame, s'))
    (htype : type ≠ RecordType.full.code) :
    physical.readRecord s =
      some (false, if type = RecordType.first.code then frame else [], s') := by
  rw [readRecord, h, Option.bind_eq_bind, Option.bind_some]
  obtain hret | ⟨inFragmentedRecord, hbrk⟩ := @recordSwitch_of_ne type frame htype
  · simp only [hret]
  · simp only [hbrk]

theorem readRecords_full (h : physical.next s = some (RecordType.full.code, frame, s')) :
    physical.readRecords s = (physical.readRecords s').map fun p => (frame :: p.1, p.2) := by
  rw [readRecords, readRecord_full h]
  simp only [Option.bind_eq_bind, Option.bind_some, if_true]
  cases physical.readRecords s' <;> rfl

theorem readRecords_of_ne {type : Nat} (h : physical.next s = some (type, frame, s'))
    (htype : type ≠ RecordType.full.code) : physical.readRecords s = some ([], s') := by
  rw [readRecords, readRecord_of_ne h htype]
  simp

end PhysicalSource

/-- The physical records of a file. -/
def physicals (C : Crc32c) : PhysicalSource Reader where
  next r := readPhysicalRecord C r []

/-- With the initial offset 0, `ReadRecord` reads its physical records from the file. -/
theorem readRecord_eq (hoffset : r.initialOffset = 0) :
    readRecord C r = ((physicals C).readRecord r).map fun (more, str, r) =>
      (more, str, if more then
        { r with lastRecordOffset := r.endOfBufferOffset - r.backingStore.length - str.length }
      else r) := by
  have hskip : ¬ r.lastRecordOffset < r.initialOffset := by
    rw [hoffset]
    exact Nat.not_lt_zero _
  rw [readRecord, if_neg hskip]
  cases hread : readPhysicalRecord C r [] with
  | none =>
    have hnext : (physicals C).next r = none := hread
    rw [PhysicalSource.readRecord, hnext]
    rfl
  | some o =>
    obtain ⟨type, frame, r'⟩ := o
    have hnext : (physicals C).next r = some (type, frame, r') := hread
    by_cases htype : type = RecordType.full.code
    · subst htype
      rw [PhysicalSource.readRecord_full hnext]
      rfl
    · rw [PhysicalSource.readRecord_of_ne hnext htype]
      dsimp only
      rw [if_neg htype]
      split <;> rfl

/-- Physical reading does not look at `last_record_offset_`. -/
theorem readPhysicalRecord_offset (k : Nat) (r : Reader) :
    readPhysicalRecord C { r with lastRecordOffset := k } result =
      (readPhysicalRecord C r result).map fun o =>
        (o.1, o.2.1, { o.2.2 with lastRecordOffset := k }) := by
  induction r using readPhysicalRecord.induct with
  | case1 r hshort heof hread =>
    rw [readPhysicalRecord_none hshort heof hread]
    exact readPhysicalRecord_none hshort heof hread
  | case2 r hshort heof hread ih =>
    rw [readPhysicalRecord_refill hshort heof hread, ← ih]
    exact readPhysicalRecord_refill hshort heof hread
  | case3 r hshort heof =>
    rw [readPhysicalRecord_eof hshort heof]
    exact readPhysicalRecord_eof hshort heof
  | case4 r hlong =>
    have hparse : parseHeader C { r with lastRecordOffset := k } result =
        ((parseHeader C r result).1, (parseHeader C r result).2.1,
          { (parseHeader C r result).2.2 with lastRecordOffset := k }) := by
      rw [parseHeader, parseHeader]
      split
      · split <;> rfl
      split
      · rfl
      split <;> rfl
    rw [readPhysicalRecord_header hlong, Option.map_some, ← hparse]
    exact readPhysicalRecord_header hlong

/-- A source that is a list of what `ReadPhysicalRecord` gives. -/
def nextPhysical : PhysicalSource (List (Nat × Bytes)) where
  next
    | [] => none
    | (type, frame) :: os => some (type, frame, os)

/-- What `ReadPhysicalRecord` gives, as a fragment. -/
def fragment (o : Nat × Bytes) : Fragment UInt8 :=
  if o.1 = RecordType.full.code then .full o.2
  else if o.1 = RecordType.first.code then .first o.2
  else if o.1 = RecordType.middle.code then .middle o.2
  else if o.1 = RecordType.last.code then .last o.2
  else .damaged

/-- All the records in front of the end of the file are returned, and false only for the end. -/
def Assembles (os : List (Nat × Bytes)) (frame : Bytes) : Prop :=
  nextPhysical.readRecords (os ++ [(kEof, frame)]) =
    some (Fragment.assemble none (os.map fragment), [])

/-- All is read exactly if the records in front of the end are whole ones. -/
theorem readRecords_eq_iff (os : List (Nat × Bytes)) (frame : Bytes) (records : List Bytes) :
    nextPhysical.readRecords (os ++ [(kEof, frame)]) = some (records, []) ↔
      (∀ o ∈ os, o.1 = RecordType.full.code) ∧ records = os.map Prod.snd := by
  induction os generalizing records with
  | nil =>
    rw [List.nil_append, PhysicalSource.readRecords_of_ne rfl kEof_ne_full]
    simp only [Option.some.injEq, Prod.mk.injEq, List.not_mem_nil, List.map_nil]
    exact ⟨fun h => ⟨fun _ => False.elim, h.1.symm⟩, fun h => ⟨h.2.symm, trivial⟩⟩
  | cons o os ih =>
    obtain ⟨type, payload⟩ := o
    rw [List.cons_append, List.forall_mem_cons, List.map_cons]
    by_cases htype : type = RecordType.full.code
    · subst htype
      rw [PhysicalSource.readRecords_full rfl, Option.map_eq_some_iff]
      constructor
      · rintro ⟨⟨rest, s⟩, hread, hrecords⟩
        obtain ⟨rfl, rfl⟩ := Prod.mk.inj hrecords
        obtain ⟨hfull, rfl⟩ := (ih rest).mp hread
        exact ⟨⟨rfl, hfull⟩, rfl⟩
      · rintro ⟨⟨-, hfull⟩, rfl⟩
        exact ⟨(_, []), (ih _).mpr ⟨hfull, rfl⟩, rfl⟩
    · rw [PhysicalSource.readRecords_of_ne rfl htype]
      refine iff_of_false (fun h => ?_) fun h => htype h.1.1
      simp at h

/-- What is returned is what the fragments say for exactly the sequences of whole records. -/
theorem assembles_iff (os : List (Nat × Bytes)) (frame : Bytes) :
    Assembles os frame ↔ ∀ o ∈ os, o.1 = RecordType.full.code := by
  rw [Assembles, readRecords_eq_iff]
  refine and_iff_left_of_imp fun hfull => ?_
  have hmap : os.map fragment = (os.map Prod.snd).map .full := by
    rw [List.map_map]
    exact List.map_congr_left fun o ho => if_pos (hfull o ho)
  rw [hmap, Fragment.assemble_map_full]

/-- A record in two fragments is not returned. -/
theorem not_assembles_group :
    ¬ Assembles [(RecordType.first.code, [1]), (RecordType.last.code, [2])] [] := by
  intro hread
  have hrecords : Fragment.assemble none
      ([(RecordType.first.code, [1]), (RecordType.last.code, [2])].map fragment) = [[1, 2]] :=
    Fragment.assemble_group none [1] [2] [] []
  have hstop : nextPhysical.readRecords
      ([(RecordType.first.code, [1]), (RecordType.last.code, [2])] ++ [(kEof, [])]) =
        some ([], [(RecordType.last.code, [2]), (kEof, [])]) :=
    PhysicalSource.readRecords_of_ne rfl
      (show RecordType.first.code ≠ RecordType.full.code by decide)
  rw [Assembles, hrecords, hstop] at hread
  cases hread

/-! ## From a file -/

theorem readPhysicals_offset (k n : Nat) (r : Reader) :
    readPhysicals C n { r with lastRecordOffset := k } =
      (readPhysicals C n r).map fun p => (p.1, { p.2 with lastRecordOffset := k }) := by
  induction n generalizing r with
  | zero => rfl
  | succ n ih =>
    rw [readPhysicals, readPhysicals, readPhysicalRecord_offset]
    cases readPhysicalRecord C r [] with
    | none => rfl
    | some o =>
      simp only [Option.map_some, Option.bind_eq_bind, Option.bind_some, ih]
      cases readPhysicals C n o.2.2 <;> rfl

theorem initialOffset_readPhysicalRecord {type : Nat} {frame : Bytes}
    (h : readPhysicalRecord C r result = some (type, frame, r')) :
    r'.initialOffset = r.initialOffset := by
  refine of_readPhysicalRecord (Q := fun r₀ => r₀.initialOffset = r.initialOffset)
    (P := fun _ _ r' => r'.initialOffset = r.initialOffset) (fun _ hr => hr) (fun _ hr => hr) ?_ rfl h
  intro r₀ hr hlong type frame r' hparse
  obtain ⟨_, _, _, hparse', -⟩ := parseHeader_reader C result hlong
  rw [hparse'] at hparse
  cases hparse
  exact hr

theorem readPhysicals_succ_eq_some {n : Nat} {o : Nat × Bytes} {results : List (Nat × Bytes)} :
    readPhysicals C (n + 1) r = some (o :: results, r') ↔
      ∃ r₁, readPhysicalRecord C r [] = some (o.1, o.2, r₁) ∧
        readPhysicals C n r₁ = some (results, r') := by
  simp only [readPhysicals, Option.bind_eq_bind, Option.bind_eq_some_iff, Option.some.injEq]
  constructor
  · rintro ⟨⟨type, frame, r₁⟩, hfirst, ⟨results', r₂⟩, hrest, heq⟩
    cases heq
    exact ⟨r₁, hfirst, hrest⟩
  · rintro ⟨r₁, hfirst, hrest⟩
    exact ⟨_, hfirst, _, hrest, rfl⟩

/-- What a reader returns depends only on its physical records. -/
theorem readRecords_eq {os : List (Nat × Bytes)} {frame : Bytes} (hoffset : r.initialOffset = 0)
    (hread : readPhysicals C (os.length + 1) r = some (os ++ [(kEof, frame)], r')) :
    readRecords C r = (nextPhysical.readRecords (os ++ [(kEof, frame)])).map Prod.fst := by
  induction os generalizing r r' with
  | nil =>
    obtain ⟨r₁, hfirst, -⟩ := readPhysicals_succ_eq_some.mp hread
    rw [List.nil_append, PhysicalSource.readRecords_of_ne rfl kEof_ne_full, readRecords,
      readRecord_eq hoffset, PhysicalSource.readRecord_of_ne hfirst kEof_ne_full]
    rfl
  | cons o os ih =>
    obtain ⟨r₁, hfirst, hrest⟩ := readPhysicals_succ_eq_some.mp hread
    obtain ⟨type, payload⟩ := o
    rw [List.cons_append, readRecords, readRecord_eq hoffset]
    by_cases htype : type = RecordType.full.code
    · subst htype
      have hoffset₁ := (initialOffset_readPhysicalRecord hfirst).trans hoffset
      have hbehind (k : Nat) : readRecords C { r₁ with lastRecordOffset := k } =
          (nextPhysical.readRecords (os ++ [(kEof, frame)])).map Prod.fst :=
        ih hoffset₁ ((readPhysicals_offset k _ r₁).trans (congrArg _ hrest))
      rw [PhysicalSource.readRecords_full rfl, PhysicalSource.readRecord_full hfirst]
      simp only [Option.map_some, if_true, Option.bind_eq_bind, Option.bind_some, hbehind]
      cases nextPhysical.readRecords (os ++ [(kEof, frame)]) <;> rfl
    · rw [PhysicalSource.readRecords_of_ne rfl htype, PhysicalSource.readRecord_of_ne hfirst htype]
      simp

end Reader
end Yubindb
