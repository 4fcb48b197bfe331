import Yubindb.Db.Walog

/-!
# The framing of the log

The physical records that `Appendrecord` emits (`fragments`, `emission`) form a chain through the
blocks of the file (`Chained`), whatever the lengths of the records are.
-/

namespace Yubindb
open ByteCodec

/-! ## Positions in a block -/

/-- The padding in front of a record that begins at offset `off` of a block. -/
def padding (off : Nat) : Nat :=
  if kBlockSize - off < kHeaderSize then kBlockSize - off else 0

/-- The block offset of its header. -/
def headerStart (off : Nat) : Nat :=
  if kBlockSize - off < kHeaderSize then 0 else off

/-- What a block has room for behind that header. -/
def available (off : Nat) : Nat := kBlockSize - headerStart off - kHeaderSize

/-- Either the block is left with a padding, or the record begins where the last one stopped. -/
theorem headerStart_cases (off : Nat) :
    (32768 - off < 7 ∧ headerStart off = 0 ∧ padding off = 32768 - off) ∨
      (7 ≤ 32768 - off ∧ headerStart off = off ∧ padding off = 0) := by
  by_cases h : kBlockSize - off < kHeaderSize
  · exact .inl ⟨h, if_pos h, if_pos h⟩
  · exact .inr ⟨Nat.not_lt.mp h, if_neg h, if_neg h⟩

theorem headerStart_le (off : Nat) : headerStart off + kHeaderSize ≤ kBlockSize := by
  rw [kBlockSize_eq, kHeaderSize_eq]
  rcases headerStart_cases off with ⟨_, h, _⟩ | ⟨_, h, _⟩ <;> omega

theorem available_eq (off : Nat) : headerStart off + kHeaderSize + available off = kBlockSize := by
  have h := headerStart_le off
  simp only [available]
  omega

theorem available_le (off : Nat) : available off ≤ kBlockSize - kHeaderSize := by
  simp only [available]
  omega

/-- The number of bytes of a record, its padding included. -/
def PhysRecord.size (e : PhysRecord) : Nat := e.trailer + kHeaderSize + e.payload.length

/-- Its bytes in the file. -/
def PhysRecord.bytes (C : Crc32c) (e : PhysRecord) : Bytes :=
  List.replicate e.trailer 0 ++ (WalWriter.header C e.type e.payload ++ e.payload)

/-- The block offset behind a record. -/
def PhysRecord.stop (e : PhysRecord) : Nat := e.blockOffset + kHeaderSize + e.payload.length

/-- A record lies where offset `off` puts it, inside its block. -/
structure PhysRecord.Placed (e : PhysRecord) (off : Nat) : Prop where
  trailer : e.trailer = padding off
  blockOffset : e.blockOffset = headerStart off
  fits : e.blockOffset + kHeaderSize + e.payload.length ≤ kBlockSize
  type : e.type ≠ .zero

/-- Each record of the list lies where the one before it stops. -/
def Chained : Nat → List PhysRecord → Prop
  | _, [] => True
  | off, e :: es => e.Placed off ∧ Chained e.stop es

/-- Where the last record stops. -/
def endOffset : Nat → List PhysRecord → Nat
  | off, [] => off
  | _, e :: es => endOffset e.stop es

@[simp] theorem length_header (C : Crc32c) (type : RecordType) (payload : Bytes) :
    (WalWriter.header C type payload).length = kHeaderSize := by
  simp [WalWriter.header, kHeaderSize_eq]

@[simp] theorem PhysRecord.length_bytes (C : Crc32c) (e : PhysRecord) :
    (e.bytes C).length = e.size := by
  simp [PhysRecord.bytes, PhysRecord.size, Nat.add_assoc]

theorem endOffset_append (off : Nat) (es es' : List PhysRecord) :
    endOffset off (es ++ es') = endOffset (endOffset off es) es' := by
  induction es generalizing off with
  | nil => rfl
  | cons e es ih => exact ih e.stop

theorem Chained.append {off : Nat} {es es' : List PhysRecord} (h : Chained off es)
    (h' : Chained (endOffset off es) es') : Chained off (es ++ es') := by
  induction es generalizing off with
  | nil => exact h'
  | cons e es ih => exact ⟨h.1, ih h.2 h'⟩

/-- The empty file is continued like one whose last block is full. -/
theorem Chained.of_zero {es : List PhysRecord} (h : Chained 0 es) : Chained kBlockSize es := by
  cases es with
  | nil => trivial
  | cons e es =>
    obtain ⟨⟨htrailer, hoffset, hfits, htype⟩, htail⟩ := h
    exact ⟨⟨htrailer, hoffset, hfits, htype⟩, htail⟩

/-! ## What the writer emits -/

/-- The physical records of the bytes `ptr`, from offset `off` of a block. -/
def fragments (off : Nat) (ptr : Bytes) : List PhysRecord :=
  if ptr = [] then []
  else
    ⟨padding off, headerStart off, WalWriter.fragmentType (available off) ptr.length,
        ptr.take (available off)⟩ ::
      fragments (headerStart off + kHeaderSize + min ptr.length (available off))
        (ptr.drop (available off))
termination_by (ptr.length, if available off = 0 then 1 else 0)
decreasing_by
  rename_i hptr
  have hpos : 0 < ptr.length := List.length_pos_iff.mpr hptr
  have hav := available_eq off
  by_cases h0 : available off = 0
  · -- a header that fills its block: nothing is consumed, but the next block is empty
    have hnext : headerStart off + kHeaderSize + min ptr.length (available off) = kBlockSize := by
      omega
    rw [hnext, h0, List.drop_zero, if_pos rfl, if_neg (by decide)]
    exact Prod.Lex.right _ (by omega)
  · exact Prod.Lex.left _ _ (by rw [List.length_drop]; omega)

@[simp] theorem fragments_nil (off : Nat) : fragments off [] = [] := by
  rw [fragments, if_pos rfl]

theorem fragments_of_ne {off : Nat} {ptr : Bytes} (h : ptr ≠ []) :
    fragments off ptr =
      ⟨padding off, headerStart off, WalWriter.fragmentType (available off) ptr.length,
        ptr.take (available off)⟩ ::
      fragments (headerStart off + kHeaderSize + min ptr.length (available off))
        (ptr.drop (available off)) := by
  rw [fragments, if_neg h]

theorem fragmentType_ne_zero (avail size : Nat) : WalWriter.fragmentType avail size ≠ .zero := by
  simp only [WalWriter.fragmentType]
  split_ifs <;> simp_all

/-- A fragment is complete, in the writer's eyes, unless it is empty. -/
theorem fragmentType_eq {avail size : Nat} (hsize : 0 < size) :
    WalWriter.fragmentType avail size = if avail = 0 then .first else .full := by
  simp only [WalWriter.fragmentType]
  split_ifs <;> simp_all

theorem length_take_available (off : Nat) (ptr : Bytes) :
    (ptr.take (available off)).length = min ptr.length (available off) := by
  rw [List.length_take, Nat.min_comm]

theorem fragments_chained (off : Nat) (ptr : Bytes) : Chained off (fragments off ptr) := by
  induction off, ptr using fragments.induct with
  | case1 off => simp [Chained]
  | case2 off ptr hptr ih =>
    rw [fragments_of_ne hptr]
    refine ⟨⟨rfl, rfl, ?_, fragmentType_ne_zero _ _⟩, ?_⟩
    · have := available_eq off
      simp only [length_take_available]
      omega
    · simpa only [PhysRecord.stop, length_take_available] using ih

/-- The fragments of a byte string concatenate to it. -/
theorem fragments_payload (off : Nat) (ptr : Bytes) :
    (fragments off ptr).flatMap PhysRecord.payload = ptr := by
  induction off, ptr using fragments.induct with
  | case1 off => simp
  | case2 off ptr hptr ih =>
    rw [fragments_of_ne hptr, List.flatMap_cons, ih, List.take_append_drop]

theorem fragments_type {off : Nat} {ptr : Bytes} {e : PhysRecord} (h : e ∈ fragments off ptr) :
    e.type = if e.payload = [] then .first else .full := by
  induction off, ptr using fragments.induct with
  | case1 off => simp at h
  | case2 off ptr hptr ih =>
    rw [fragments_of_ne hptr] at h
    rcases List.mem_cons.mp h with rfl | h
    · have hpos : 0 < ptr.length := List.length_pos_iff.mpr hptr
      simp [fragmentType_eq hpos, List.take_eq_nil_iff, hptr]
    · exact ih h

/-- What fits in the block is one fragment. -/
theorem fragments_of_fits {off : Nat} {ptr : Bytes} (hne : ptr ≠ [])
    (hfits : ptr.length ≤ available off) :
    fragments off ptr = [⟨padding off, headerStart off, .full, ptr⟩] := by
  have hpos : 0 < ptr.length := List.length_pos_iff.mpr hne
  rw [fragments_of_ne hne, List.take_of_length_le hfits, List.drop_eq_nil_of_le hfits,
    fragments_nil, fragmentType_eq hpos, if_neg (by omega)]

theorem fragments_take_of_fits {off : Nat} {str : Bytes} (hne : str ≠ [])
    (hfits : str.length ≤ available off) :
    fragments off (str.take (str.length % 2 ^ 32)) =
      [⟨padding off, headerStart off, .full, str⟩] := by
  have hav : available off ≤ 32768 - 7 := available_le off
  rw [Nat.mod_eq_of_lt (by omega), List.take_length, fragments_of_fits hne hfits]

/-! ## The writer over a file that accepts everything -/

namespace WalWriter
variable (C : Crc32c)

theorem trailer_eq (w : WalWriter F) : w.trailer = padding w.blockOffset := rfl

theorem padBlock_eq {w : WalWriter WritableFile} (hbuf : w.file.buf = []) :
    w.padBlock =
      { w with
        file := ⟨List.replicate (padding w.blockOffset) 0, w.file.disk⟩
        blockOffset := headerStart w.blockOffset } := by
  obtain ⟨⟨buf, disk⟩, off, emitted⟩ := w
  cases hbuf
  simp only [padBlock]
  rcases headerStart_cases off with ⟨hleft, hstart, hpad⟩ | ⟨hleft, hstart, hpad⟩
  · rw [if_pos (show kBlockSize - off < kHeaderSize from hleft), hstart, hpad]
    by_cases hzero : kBlockSize - off > 0
    · rw [if_pos hzero, WritableFile.append_def, WritableFile.append_of_fits] <;>
        simp [kBlockSize_eq, kWritableFileBufferSize]
      omega
    · rw [if_neg hzero, show 32768 - off = 0 by rw [kBlockSize_eq] at hzero; omega]
      rfl
  · rw [if_neg (show ¬ kBlockSize - off < kHeaderSize from Nat.not_lt.mpr hleft), hstart, hpad]
    rfl

theorem flushphyrecord_eq {w : WalWriter WritableFile} {type : RecordType} {payload : Bytes}
    (hbuf : w.file.buf.length < kHeaderSize) (hpayload : payload.length ≤ kBlockSize) :
    w.flushphyrecord C type payload =
      (.ok, { w with
        file := ⟨[], w.file.disk ++ (w.file.buf ++ (header C type payload ++ payload))⟩
        blockOffset := w.blockOffset + kHeaderSize + payload.length }) := by
  rw [kHeaderSize_eq] at hbuf
  rw [kBlockSize_eq] at hpayload
  have h1 : w.file.append (header C type payload) =
      (.ok, { w.file with buf := w.file.buf ++ header C type payload }) := by
    apply WritableFile.append_of_fits
    simp only [length_header, kHeaderSize_eq, kWritableFileBufferSize]
    omega
  have h2 : ({ w.file with buf := w.file.buf ++ header C type payload } : WritableFile).append
      payload = (.ok, { w.file with buf := w.file.buf ++ header C type payload ++ payload }) := by
    apply WritableFile.append_of_fits
    simp only [List.length_append, length_header, kHeaderSize_eq, kWritableFileBufferSize]
    omega
  simp [flushphyrecord, h1, h2, WritableFile.flush]

/-- One round writes the first of the fragments. -/
theorem appendRound_eq {w : WalWriter WritableFile} (hbuf : w.file.buf = []) (ptr : Bytes) :
    let e : PhysRecord := ⟨padding w.blockOffset, headerStart w.blockOffset,
      fragmentType (available w.blockOffset) ptr.length, ptr.take (available w.blockOffset)⟩
    w.appendRound C ptr =
      (.ok, ⟨⟨[], w.file.disk ++ e.bytes C⟩, e.stop, w.emitted ++ [e]⟩) := by
  have htake : ptr.take (min ptr.length (available w.blockOffset)) =
      ptr.take (available w.blockOffset) := by
    rw [List.take_eq_take_iff]
    omega
  have hlen : (ptr.take (available w.blockOffset)).length ≤ kBlockSize := by
    have := available_le w.blockOffset
    rw [List.length_take]
    omega
  simp only [appendRound, trailer_eq, padBlock_eq hbuf, ← available.eq_1, htake]
  rw [flushphyrecord_eq C _ hlen]
  · rfl
  · rw [List.length_replicate, kHeaderSize_eq]
    rcases headerStart_cases w.blockOffset with ⟨h, _, hp⟩ | ⟨h, _, hp⟩ <;> omega

/-- The loop of `Appendrecord` ends, with all fragments written. -/
theorem appendLoop_eq (disk : Bytes) (off : Nat) (emitted : List PhysRecord) (ptr : Bytes)
    (s : State) :
    appendLoop C ⟨WritableFile.mk [] disk, off, emitted⟩ ptr s =
      some (if ptr = [] then s else .ok,
        ⟨⟨[], disk ++ (fragments off ptr).flatMap (PhysRecord.bytes C)⟩,
          endOffset off (fragments off ptr), emitted ++ fragments off ptr⟩) := by
  induction off, ptr using fragments.induct generalizing disk emitted s with
  | case1 off => rw [appendLoop]; simp [endOffset]
  | case2 off ptr hptr ih =>
    have hdrop : ptr.drop (min ptr.length (available off)) = ptr.drop (available off) := by
      rcases Nat.le_total ptr.length (available off) with h | h
      · rw [Nat.min_eq_left h, List.drop_length, List.drop_eq_nil_of_le h]
      · rw [Nat.min_eq_right h]
    rw [appendLoop, if_neg hptr, appendRound_eq C rfl]
    simp only [roundSize, padBlock_eq, ← available.eq_1, hdrop, PhysRecord.stop,
      length_take_available]
    rw [ih, fragments_of_ne hptr, if_neg hptr]
    simp [endOffset, PhysRecord.stop, Nat.min_comm]

/-- The physical records of a list of records appended one after the other. -/
def emission (off : Nat) : List Bytes → List PhysRecord
  | [] => []
  | str :: records =>
    let es := fragments off (str.take (str.length % 2 ^ 32))
    es ++ emission (endOffset off es) records

theorem appendAll_eq (disk : Bytes) (off : Nat) (emitted : List PhysRecord) (records : List Bytes) :
    appendAll C ⟨WritableFile.mk [] disk, off, emitted⟩ records =
      some ⟨⟨[], disk ++ (emission off records).flatMap (PhysRecord.bytes C)⟩,
        endOffset off (emission off records), emitted ++ emission off records⟩ := by
  induction records generalizing disk off emitted with
  | nil => simp [appendAll, emission, endOffset]
  | cons str records ih =>
    simp only [appendAll, appendrecord, appendLoop_eq, ite_self, ih, emission, endOffset_append,
      List.flatMap_append, List.append_assoc]

/-- All appends to an empty file succeed, and leave the emission in it. -/
theorem appendAll_new (records : List Bytes) :
    appendAll C (new WritableFile.empty) records =
      some ⟨⟨[], (emission 0 records).flatMap (PhysRecord.bytes C)⟩,
        endOffset 0 (emission 0 records), emission 0 records⟩ :=
  appendAll_eq C [] 0 [] records

end WalWriter

theorem emission_chained (off : Nat) (records : List Bytes) :
    Chained off (WalWriter.emission off records) := by
  induction records generalizing off with
  | nil => trivial
  | cons str records ih => exact (fragments_chained _ _).append (ih _)

theorem emission_type {off : Nat} {records : List Bytes} {e : PhysRecord}
    (h : e ∈ WalWriter.emission off records) :
    e.type = if e.payload = [] then .first else .full := by
  induction records generalizing off with
  | nil => simp [WalWriter.emission] at h
  | cons str records ih =>
    rcases List.mem_append.mp h with h | h
    · exact fragments_type h
    · exact ih h

end Yubindb
