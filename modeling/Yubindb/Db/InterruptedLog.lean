import Yubindb.Db.DurableLog
import Yubindb.Db.Reopen
import Yubindb.Util.FileRead

/-!
# Replaying a log when a signal comes

`Reader` and `RecoverLogFile`, over what the kernel answers to each `::read`. A `Read` that has been
interrupted leaves a block of zeros in front of the data, and the reader takes it for the end of the
log.
-/

namespace Yubindb

/-- The bytes of the reads of `n` bytes, up to the first that gives fewer, or is interrupted. -/
def ReadAnswer.delivered (n : Nat) : List ReadAnswer → Nat
  | .count k :: answers => if k < n then k else k + delivered n answers
  | _ => 0

theorem ReadAnswer.delivered_le {n left : Nat} {answers : List ReadAnswer}
    (h : Legal n left answers) : delivered n answers ≤ left := by
  induction answers generalizing left with
  | nil => exact Nat.zero_le _
  | cons answer answers ih =>
    cases answer with
    | eintr | error => exact Nat.zero_le _
    | count k =>
      obtain ⟨-, hk, -, hlegal⟩ := h
      rw [delivered]
      have hrest := ih hlegal
      split <;> omega

/-! ## The reader -/

namespace Reader

/-- The reader behind a `Read` that has put bytes in the empty `backing_store_`. -/
def refilled (r : Reader) (ret : ReadReturn) : Reader :=
  { r with
    file := ret.file
    backingStore := ret.result
    endOfBufferOffset := r.endOfBufferOffset + ret.result.length
    eof := decide (ret.result.length < kBlockSize) }

/-- `Reader::ReadPhysicalRecord`, with its variable `readsize`. It is `none` also where it waits for the
kernel. -/
def readPhysicalRecordWith (C : Crc32c) (r : Reader) (result : Bytes) (readsize : Nat)
    (answers : List ReadAnswer) : Option (Nat × Bytes × Reader × List ReadAnswer) :=
  if r.backingStore.length < kHeaderSize then
    if !r.eof then
      match _h : r.file.readWith kBlockSize [] readsize answers with
      | none => none
      | some ret =>
        if ret.readsize = 0 then none
        else if ret.state ≠ .ok then
          some (kEof, result, { r.refilled ret with backingStore := [], eof := true }, ret.answers)
        else (r.refilled ret).readPhysicalRecordWith C result ret.readsize ret.answers
    else some (kEof, result, { r with backingStore := [] }, answers)
  else
    let (type, frame, r) := parseHeader C r result
    some (type, frame, r, answers)
termination_by answers.length
decreasing_by exact ReadFile.length_answers_readWith _h

/-- `Reader::ReadRecord`. -/
def readRecordWith (C : Crc32c) (r : Reader) (answers : List ReadAnswer) :
    Option (Bool × Bytes × Reader × List ReadAnswer) :=
  let r := if r.lastRecordOffset < r.initialOffset then r.skipToInitialBlock else r
  match readPhysicalRecordWith C r [] 0 answers with
  | none => none
  | some (recordType, frame, r, answers) =>
    let physicalRecordoff := r.endOfBufferOffset - r.backingStore.length - frame.length
    if recordType = RecordType.full.code then
      some (true, frame, { r with lastRecordOffset := physicalRecordoff }, answers)
    else if recordType = RecordType.first.code then some (false, frame, r, answers)
    else some (false, [], r, answers)

variable {C : Crc32c} {r r' s : Reader} {result frame : Bytes} {readsize type : Nat}
  {answers answers' : List ReadAnswer} {ret : ReadReturn}

theorem readPhysicalRecordWith_none (hshort : r.backingStore.length < kHeaderSize)
    (heof : r.eof = false) (hread : r.file.readWith kBlockSize [] readsize answers = none) :
    readPhysicalRecordWith C r result readsize answers = none := by
  rw [readPhysicalRecordWith, if_pos hshort, if_pos (by rw [heof]; rfl)]
  split
  · rfl
  · next hsome => exact absurd (hread.symm.trans hsome) nofun

theorem readPhysicalRecordWith_read (hshort : r.backingStore.length < kHeaderSize)
    (heof : r.eof = false) (hread : r.file.readWith kBlockSize [] readsize answers = some ret) :
    readPhysicalRecordWith C r result readsize answers =
      if ret.readsize = 0 then none
      else if ret.state ≠ .ok then
        some (kEof, result, { r.refilled ret with backingStore := [], eof := true }, ret.answers)
      else (r.refilled ret).readPhysicalRecordWith C result ret.readsize ret.answers := by
  conv_lhs => rw [readPhysicalRecordWith, if_pos hshort, if_pos (by rw [heof]; rfl)]
  split
  · next hnone => exact absurd (hnone.symm.trans hread) nofun
  · next ret' hsome => rw [Option.some.inj (hsome.symm.trans hread)]

theorem readPhysicalRecordWith_eof (hshort : r.backingStore.length < kHeaderSize)
    (heof : r.eof = true) :
    readPhysicalRecordWith C r result readsize answers =
      some (kEof, result, { r with backingStore := [] }, answers) := by
  rw [readPhysicalRecordWith, if_pos hshort, if_neg (by rw [heof]; exact Bool.false_ne_true)]

theorem readPhysicalRecordWith_header (hlong : ¬ r.backingStore.length < kHeaderSize) :
    readPhysicalRecordWith C r result readsize answers =
      some ((parseHeader C r result).1, (parseHeader C r result).2.1, (parseHeader C r result).2.2,
        answers) := by
  rw [readPhysicalRecordWith, if_neg hlong]

/-- A header of zeros. -/
theorem parseHeader_zeros {n : Nat} {tail : Bytes} (hn : kHeaderSize ≤ n)
    (hback : r.backingStore = List.replicate n 0 ++ tail) :
    parseHeader C r result = (kBadRecord, result, { r with backingStore := [] }) := by
  obtain ⟨m, rfl⟩ := Nat.exists_eq_add_of_le hn
  have hheader : r.backingStore = [0, 0, 0, 0, 0, 0, 0] ++ (List.replicate m 0 ++ tail) := by
    rw [hback, ← List.replicate_append_replicate, List.append_assoc]
    rfl
  have hlen : ¬ kHeaderSize + 0 > r.backingStore.length := by
    rw [hheader, List.length_append]
    exact Nat.not_lt.mpr (Nat.le_add_right _ _)
  rw [hheader] at hlen
  rw [parseHeader, hheader]
  refine (if_neg ?_).trans (if_pos ?_)
  · simpa using hlen
  · simp [unsignedOfChar, RecordType.code]

/-! ## A reader on the bytes that are delivered -/

/-- The reader on another file. -/
def onFile (r : Reader) (f : ReadFile) : Reader := { r with file := f }

/-- The header is read from the buffer, and the file stays. -/
theorem parseHeader_onFile (C : Crc32c) (r : Reader) (f : ReadFile) (result : Bytes) :
    parseHeader C (r.onFile f) result = ((parseHeader C r result).1, (parseHeader C r result).2.1,
      { r with backingStore := (parseHeader C r result).2.2.backingStore }.onFile f) := by
  change parseHeader C { r with file := f } result = _
  rw [parseHeader, parseHeader]
  dsimp only
  split
  · split <;> rfl
  split
  · rfl
  split <;> rfl

/-- The file has the bytes that the answers deliver to the reader. -/
structure Delivers (f : ReadFile) (r : Reader) (answers : List ReadAnswer) : Prop where
  legal : r.eof = false → ReadAnswer.Legal kBlockSize r.file.rest.length answers
  rest : r.eof = false → f.rest = r.file.rest.take (ReadAnswer.delivered kBlockSize answers)

variable {f : ReadFile}

theorem Delivers.of_eq (h : Delivers f r answers) (hfile : r'.file = r.file) (heof : r'.eof = r.eof) :
    Delivers f r' answers where
  legal h' := hfile ▸ h.legal (heof ▸ h')
  rest h' := hfile ▸ h.rest (heof ▸ h')

/-- A `Read` that no signal has interrupted is one of the file with the delivered bytes. -/
theorem Delivers.refill {k : Nat} (h : Delivers f r (.count k :: answers)) (heof : r.eof = false) :
    ((r.onFile f).file.read kBlockSize).1 = r.file.rest.take k ∧
      ∃ f', (r.onFile f).refill =
          (r.refilled ⟨.ok, r.file.rest.take k, k, ⟨r.file.rest.drop k⟩, answers⟩).onFile f' ∧
        Delivers f' (r.refilled ⟨.ok, r.file.rest.take k, k, ⟨r.file.rest.drop k⟩, answers⟩)
          answers := by
  obtain ⟨hblock, hle, -, hlegal⟩ := h.legal heof
  have hrest := h.rest heof
  rw [ReadAnswer.delivered] at hrest
  have hread : (r.onFile f).file.read kBlockSize = (r.file.rest.take k, ⟨f.rest.drop kBlockSize⟩) := by
    have hmin : min kBlockSize (if k < kBlockSize then k else k + ReadAnswer.delivered kBlockSize answers) =
        k := by
      split <;> omega
    rw [ReadFile.read, onFile, hrest, List.take_take, hmin]
  refine ⟨congrArg Prod.fst hread, ⟨f.rest.drop kBlockSize⟩, ?_, fun _ => ?_, fun heof' => ?_⟩
  · rw [Reader.refill, hread]
    rfl
  · rw [← List.length_drop] at hlegal
    exact hlegal
  · have hlong : ¬ (r.file.rest.take k).length < kBlockSize := of_decide_eq_false heof'
    rw [List.length_take, Nat.min_eq_left hle] at hlong
    obtain rfl : k = kBlockSize := Nat.le_antisymm hblock (Nat.le_of_not_lt hlong)
    rw [hrest, if_neg hlong, List.drop_take, Nat.add_sub_cancel_left]
    rfl

/-- Where the answers deliver nothing, the reader on the delivered bytes runs off their end. -/
theorem Delivers.readPhysicalRecord_none (h : Delivers f r answers)
    (hshort : r.backingStore.length < kHeaderSize) (heof : r.eof = false)
    (hzero : ReadAnswer.delivered kBlockSize answers = 0) :
    readPhysicalRecord C (r.onFile f) result = none := by
  refine Reader.readPhysicalRecord_none hshort (by simp [onFile, heof]) ?_
  rw [ReadFile.read, onFile, h.rest heof, hzero, List.take_zero, List.take_nil]
  rfl

/-- What a call returns, the reader on the delivered bytes returns too; or that one runs off the end of
the bytes, and the call returns no record. -/
theorem Delivers.of_readPhysicalRecordWith (h : Delivers f r answers)
    (hread : readPhysicalRecordWith C r result readsize answers = some (type, frame, r', answers')) :
    (∃ f', readPhysicalRecord C (r.onFile f) result = some (type, frame, r'.onFile f') ∧
        Delivers f' r' answers') ∨
      readPhysicalRecord C (r.onFile f) result = none ∧ (type = kBadRecord ∨ type = kEof) := by
  induction hn : answers.length using Nat.strong_induction_on generalizing f r readsize answers with
  | _ n ih =>
    subst hn
    by_cases hshort : r.backingStore.length < kHeaderSize
    · cases heof : r.eof with
      | true =>
        rw [readPhysicalRecordWith_eof hshort heof] at hread
        cases hread
        refine .inl ⟨f, ?_, h.of_eq rfl rfl⟩
        exact readPhysicalRecord_eof hshort (by simp [onFile, heof])
      | false =>
        have hnot : (!(r.onFile f).eof) = true := by simp [onFile, heof]
        cases hret : r.file.readWith kBlockSize [] readsize answers with
        | none =>
          rw [readPhysicalRecordWith_none hshort heof hret] at hread
          cases hread
        | some ret =>
          have hlen := ReadFile.length_answers_readWith hret
          rw [readPhysicalRecordWith_read hshort heof hret] at hread
          split at hread
          · cases hread
          next hsize =>
          obtain ⟨j, rest, ⟨rfl, rfl⟩ | ⟨k, rfl, rfl⟩⟩ := ReadFile.readWith_cases hret
          · rw [if_pos nofun] at hread
            cases hread
            exact .inr ⟨h.readPhysicalRecord_none hshort heof (by cases j <;> rfl), .inr rfl⟩
          rw [if_neg (not_not.mpr rfl)] at hread
          cases j with
          | zero =>
            rw [Nat.zero_mul, List.replicate_zero, List.nil_append, List.nil_append] at hread
            obtain ⟨hdata, f', hrefill, hdelivers⟩ := h.refill heof
            have hne : ¬ ((r.onFile f).file.read kBlockSize).1.length = 0 := by
              rw [hdata, List.length_take, Nat.min_eq_left (h.legal heof).2.1]
              exact hsize
            rw [readPhysicalRecord_refill (r := r.onFile f) hshort hnot hne, hrefill]
            exact ih _ hlen hdelivers hread rfl
          | succ j =>
            -- the header is in the zeros
            have hzeros : kHeaderSize ≤ (j + 1) * kBlockSize := by
              rw [kHeaderSize_eq, kBlockSize_eq]
              omega
            have hlong : ¬ (r.refilled ⟨.ok, [] ++ (List.replicate ((j + 1) * kBlockSize) 0 ++
                r.file.rest.take k), k, ⟨r.file.rest.drop k⟩, rest⟩).backingStore.length < kHeaderSize := by
              rw [refilled, List.nil_append, List.length_append, List.length_replicate]
              exact Nat.not_lt.mpr (Nat.le_add_right_of_le hzeros)
            rw [readPhysicalRecordWith_header hlong, parseHeader_zeros hzeros (List.nil_append _)] at hread
            cases hread
            exact .inr ⟨h.readPhysicalRecord_none hshort heof rfl, .inl rfl⟩
    · rw [readPhysicalRecordWith_header hshort] at hread
      cases hread
      have hstay : (parseHeader C r result).2.2 =
          { r with backingStore := (parseHeader C r result).2.2.backingStore } :=
        congrArg (·.2.2) (parseHeader_onFile C r r.file result)
      refine .inl ⟨f, ?_, h.of_eq (congrArg Reader.file hstay :) (congrArg Reader.eof hstay :)⟩
      rw [readPhysicalRecord_header (r := r.onFile f) hshort, parseHeader_onFile, ← hstay]

/-! ## Records -/

/-- Only whole records are returned. -/
theorem readRecordWith_cases {str : Bytes} {more : Bool} (hoffset : r.initialOffset = 0)
    (hread : readRecordWith C r answers = some (more, str, r', answers')) :
    ∃ type frame r₁, readPhysicalRecordWith C r [] 0 answers = some (type, frame, r₁, answers') ∧
      (type = RecordType.full.code ∧ more = true ∧ str = frame ∧
          (∃ offset, r' = { r₁ with lastRecordOffset := offset }) ∨
        type ≠ RecordType.full.code ∧ more = false) := by
  have hskip : ¬ r.lastRecordOffset < r.initialOffset := by
    rw [hoffset]
    exact Nat.not_lt_zero _
  rw [readRecordWith, if_neg hskip] at hread
  split at hread
  · cases hread
  next type frame r₁ answers₁ hphysical =>
  dsimp only at hread
  split at hread
  · next hfull =>
    cases hread
    exact ⟨_, _, _, hphysical, .inl ⟨hfull, rfl, rfl, _, rfl⟩⟩
  next hfull =>
  split at hread
  all_goals
    cases hread
    exact ⟨_, _, _, hphysical, .inr ⟨hfull, rfl⟩⟩

/-- A whole record is returned. -/
theorem Delivers.readRecordWith_whole {off : Nat} {e : PhysRecord} {tail str : Bytes} {more : Bool}
    (h : Delivers f r answers) (hat : At off (e.bytes C ++ tail) (r.onFile f)) (hplaced : e.Placed off)
    (hfull : e.type = .full) (hread : readRecordWith C r answers = some (more, str, r', answers')) :
    more = true ∧ str = e.payload ∧ ∃ f', At e.stop tail (r'.onFile f') ∧ Delivers f' r' answers' := by
  obtain ⟨s, hwhole, hstop⟩ := hat.readPhysicalRecord_whole hplaced []
  obtain ⟨type, frame, r₁, hphysical, hcases⟩ := readRecordWith_cases (r := r) hat.initialOffset hread
  rcases h.of_readPhysicalRecordWith hphysical with ⟨f', hsome, hdelivers⟩ | ⟨hnone, -⟩
  · obtain ⟨rfl, rfl, rfl⟩ : e.type.code = type ∧ e.payload = frame ∧ s = r₁.onFile f' := by
      cases hwhole.symm.trans hsome
      exact ⟨rfl, rfl, rfl⟩
    rcases hcases with ⟨-, rfl, rfl, offset, rfl⟩ | ⟨hne, -⟩
    · exact ⟨rfl, rfl, f', ⟨hstop.le, hstop.backingStore, hstop.file, hstop.eof, hstop.checksum,
        hstop.initialOffset⟩, hdelivers.of_eq rfl rfl⟩
    · exact absurd (congrArg RecordType.code hfull) hne
  · cases hwhole.symm.trans hnone

/-- Behind the whole records, none is returned. -/
theorem Delivers.readRecordWith_end {str : Bytes} {more : Bool} (h : Delivers f r answers)
    (hoffset : r.initialOffset = 0) {c : Prop} [Decidable c]
    (hend : (readPhysicalRecord C (r.onFile f) []).map Prod.fst = if c then none else some kEof)
    (hread : readRecordWith C r answers = some (more, str, r', answers')) : more = false := by
  obtain ⟨type, frame, r₁, hphysical, ⟨hfull, -⟩ | ⟨-, hmore⟩⟩ := readRecordWith_cases hoffset hread
  · rcases h.of_readPhysicalRecordWith hphysical with ⟨f', hsome, -⟩ | ⟨-, heof | heof⟩
    · rw [hsome] at hend
      split at hend
      · cases hend
      · exact absurd (hfull.symm.trans (Option.some.inj hend)) (by decide)
    all_goals exact absurd (hfull.symm.trans heof) (by decide)
  · exact hmore

end Reader

/-! ## The replay -/

namespace LogReplay

/-- The loop of `RecoverLogFile`, over the answers of the kernel. -/
def recoverLoopWith (C : Crc32c) (writeBufferSize : Nat) (io : OpenIo) (reader : Reader)
    (answers : List ReadAnswer) (mem : Option Memtable) (r : LogReplay) : Option (State × LogReplay) :=
  match reader.readRecordWith C answers with
  | none => none
  | some (false, _, _) => some (.ok, r)
  | some (true, record, reader, answers) =>
    if record.length < 12 then r |>.recoverLoopWith C writeBufferSize io reader answers mem
    else
      let (s, mem, r) := r.replayRecord writeBufferSize io record mem
      if s ≠ .ok then some (s, r)
      else r |>.recoverLoopWith C writeBufferSize io reader answers mem
partial_fixpoint

/-- `RecoverLogFile`, over the answers of the kernel. -/
def recoverLogFileWith (C : Crc32c) (writeBufferSize : Nat) (io : OpenIo) (dir : Dir) (number : Nat)
    (answers : List ReadAnswer) (r : LogReplay) : Option (State × LogReplay) :=
  let logNum := number % 2 ^ 32
  if logNum = 0 then none
  else
    match dir.logs (logFileName logNum) with
    | none => some (.ioError, r)
    | some file => recoverLoopWith C writeBufferSize io (.new ⟨file⟩ true 0) answers none r

variable {C : Crc32c} {limit : Nat} {io : OpenIo} {dir : Dir} {answers : List ReadAnswer}
  {mem : Option Memtable} {r : LogReplay} {out : State × LogReplay}

theorem recoverLoopWith_end {f : ReadFile} {reader : Reader} (hdelivers : reader.Delivers f answers)
    (hoffset : reader.initialOffset = 0) {c : Prop} [Decidable c]
    (hend : (Reader.readPhysicalRecord C (reader.onFile f) []).map Prod.fst =
      if c then none else some Reader.kEof)
    (h : recoverLoopWith C limit io reader answers mem r = some out) : (.ok, r) = out := by
  rw [recoverLoopWith] at h
  split at h
  · cases h
  · exact Option.some.inj h
  · next hread => exact absurd (hdelivers.readRecordWith_end hoffset hend hread) (by decide)

/-- The loop replays the records that are whole in the delivered bytes. -/
theorem recoverLoopWith_contained {f : ReadFile} {reader : Reader} {off n : Nat} {es : List PhysRecord}
    (hdelivers : reader.Delivers f answers)
    (hat : Reader.At off ((es.flatMap (PhysRecord.bytes C)).take n) (reader.onFile f)) (hoff : 0 < off)
    (hchain : Chained off es) (hn : n ≤ (es.flatMap (PhysRecord.bytes C)).length)
    (hfull : ∀ e ∈ es, e.type = .full)
    (h : recoverLoopWith C limit io reader answers mem r = some out) :
    replayBatches limit io (batchesOf ((contained n es).map PhysRecord.payload)) mem r = out := by
  induction es generalizing f reader off n answers mem r with
  | nil =>
    exact recoverLoopWith_end hdelivers hat.initialOffset
      (hat.readPhysicalRecord_end hoff hchain hn (by simp)) h
  | cons e es ih =>
    by_cases hsize : e.size ≤ n
    · obtain ⟨k, rfl⟩ := Nat.exists_eq_add_of_le hsize
      have hbytes := PhysRecord.length_bytes C e
      rw [List.flatMap_cons, List.length_append, hbytes] at hn
      rw [List.flatMap_cons, ← hbytes, List.take_length_add_append] at hat
      obtain ⟨htype, hfull⟩ := List.forall_mem_cons.mp hfull
      have hpos : 0 < e.stop := by simp [PhysRecord.stop, kHeaderSize_eq]
      rw [contained, if_pos hsize, Nat.add_sub_cancel_left, List.map_cons]
      rw [recoverLoopWith] at h
      split at h
      · cases h
      · next hread => exact absurd (hdelivers.readRecordWith_whole hat hchain.1 htype hread).1 (by decide)
      · next record reader' answers' hread =>
        obtain ⟨-, rfl, f', hat', hdelivers'⟩ := hdelivers.readRecordWith_whole hat hchain.1 htype hread
        have hnext := fun {mem r} => @ih answers' mem r f' reader' e.stop k hdelivers' hat' hpos
          hchain.2 (by omega) hfull
        split at h
        · next hlen =>
          rw [batchesOf, List.filter_cons_of_neg (by simp [hlen])]
          exact hnext h
        · next hlen =>
          rw [batchesOf, List.filter_cons_of_pos (by simp [hlen]), List.map_cons, replayBatches]
          dsimp only at h
          split at h
          · next hs =>
            cases h
            exact if_pos hs
          · next hs =>
            exact (if_neg hs).trans (hnext h)
    · have htorn : ∀ e' ∈ (e :: es).head?, n < e'.size := by
        rintro e' ⟨⟩
        exact Nat.lt_of_not_le hsize
      rw [contained, if_neg hsize]
      exact recoverLoopWith_end hdelivers hat.initialOffset
        (hat.readPhysicalRecord_end hoff hchain hn htorn) h

/-- Whatever the kernel answers, the replay of a log is the one of the records that are whole in the bytes
in front of the first interrupted or short read. The records behind them are dropped, and no state
tells. -/
theorem recoverLogFileWith_eq {records : List Bytes} {number : Nat}
    (hblocks : InBlocks 0 (stored records))
    (hlog : dir.logs (logFileName (number % 2 ^ 32)) = some (logBytes C records))
    (hlegal : ReadAnswer.Legal kBlockSize (logBytes C records).length answers)
    (h : r.recoverLogFileWith C limit io dir number answers = some out) :
    replayBatches limit io (batchesOf ((contained (ReadAnswer.delivered kBlockSize answers)
      (WalWriter.emission 0 (stored records))).map PhysRecord.payload)) none r = out := by
  rw [recoverLogFileWith] at h
  split at h
  · cases h
  rw [hlog] at h
  obtain ⟨hfull, -⟩ := hblocks.emission_full fun str => ne_nil_of_mem_stored
  rw [← logBytes_stored] at h hlegal
  have hdelivers : (Reader.new ⟨logBytes C (stored records)⟩ true 0).Delivers
      ⟨(logBytes C (stored records)).take (ReadAnswer.delivered kBlockSize answers)⟩ answers :=
    ⟨fun _ => hlegal, fun _ => rfl⟩
  exact recoverLoopWith_contained hdelivers (Reader.at_new _) (by decide)
    (emission_chained 0 (stored records)).of_zero (ReadAnswer.delivered_le hlegal) hfull h

theorem recoverLoopWith_false {reader reader' : Reader} {str : Bytes} {answers' : List ReadAnswer}
    (h : reader.readRecordWith C answers = some (false, str, reader', answers')) :
    recoverLoopWith C limit io reader answers mem r = some (.ok, r) := by
  rw [recoverLoopWith, h]

/-- A signal in front of the only block: the record of the `Put` is not replayed. -/
theorem recoverLogFileWith_eq_interrupted :
    replayBatches 8192 {} (batchesOf ((contained (ReadAnswer.delivered kBlockSize [.eintr, .count 24])
      (WalWriter.emission 0 (stored [firstPut.contents]))).map PhysRecord.payload)) none
        { versions := {} } = (.ok, { versions := {} }) := by
  let log := logBytes .castagnoli [firstPut.contents]
  let reader := Reader.new ⟨log⟩ true 0
  have hlen : log.length = 24 := by
    have hfits := @fragments_take_of_fits 0 firstPut.contents (by decide) (by decide)
    rw [show log = logBytes .castagnoli [firstPut.contents] from rfl, logBytes, WalWriter.emission,
      hfits, WalWriter.emission, List.append_nil, List.flatMap_singleton, PhysRecord.length_bytes]
    decide
  have hlegal : ReadAnswer.Legal kBlockSize log.length [.eintr, .count 24] := by
    rw [hlen]
    exact ⟨by decide, by decide, by decide, trivial⟩
  have hread : reader.file.readWith kBlockSize [] 0 [.eintr, .count 24] =
      some ⟨.ok, List.replicate kBlockSize 0 ++ log.take 24, 24, ⟨log.drop 24⟩, []⟩ := by
    rw [ReadFile.readWith, List.nil_append]
    rfl
  have hphysical : ∃ reader', reader.readPhysicalRecordWith .castagnoli [] 0 [.eintr, .count 24] =
      some (Reader.kBadRecord, [], reader', []) := by
    have hlong : ¬ (reader.refilled ⟨.ok, List.replicate kBlockSize 0 ++ log.take 24, 24,
        ⟨log.drop 24⟩, []⟩).backingStore.length < kHeaderSize := by
      rw [Reader.refilled, List.length_append, List.length_replicate]
      exact Nat.not_lt.mpr (Nat.le_add_right_of_le (by decide))
    rw [Reader.readPhysicalRecordWith_read (by decide) rfl hread, if_neg (by decide),
      if_neg (not_not.mpr rfl), Reader.readPhysicalRecordWith_header hlong,
      Reader.parseHeader_zeros (by decide : kHeaderSize ≤ kBlockSize) rfl]
    exact ⟨_, rfl⟩
  have hrun : recoverLogFileWith .castagnoli 8192 {} (.crashed {} log) 3 [.eintr, .count 24]
      { versions := {} } = some (.ok, { versions := {} }) := by
    obtain ⟨reader', hphysical⟩ := hphysical
    have hrecord : reader.readRecordWith .castagnoli [.eintr, .count 24] =
        some (false, [], reader', []) := by
      rw [Reader.readRecordWith, if_neg (by decide), hphysical]
      rfl
    rw [recoverLogFileWith, if_neg (by decide), Dir.logs_crashed]
    exact recoverLoopWith_false hrecord
  exact recoverLogFileWith_eq (by decide) (Dir.logs_crashed {} log) hlegal hrun

end LogReplay

end Yubindb
