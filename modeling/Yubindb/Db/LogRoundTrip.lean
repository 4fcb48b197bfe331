import Yubindb.Db.LogFraming
import Yubindb.Db.Reader

/-!
# Reading the log back

The reader follows the chain of physical records: `Reader.At off rest r` says that `r` stands at
offset `off` of a block with `rest` still to come, and a call of `ReadPhysicalRecord` on a whole
record moves it behind that record (`At.readPhysicalRecord_whole`).
-/

namespace Yubindb
open ByteCodec

namespace Reader

/-- The reader stands at offset `off` of a block, `rest` is what follows in the file. -/
structure At (off : Nat) (rest : Bytes) (r : Reader) : Prop where
  le : off ≤ kBlockSize
  backingStore : r.backingStore = rest.take (kBlockSize - off)
  file : r.file.rest = rest.drop (kBlockSize - off)
  eof : r.eof = decide (rest.length < kBlockSize - off)
  checksum : r.checksum = true
  initialOffset : r.initialOffset = 0

/-- A new reader stands behind a block that it need not read. -/
theorem at_new (contents : Bytes) : At kBlockSize contents (new ⟨contents⟩ true 0) :=
  ⟨Nat.le_refl _, by simp [new], by simp [new], by simp [new], rfl, rfl⟩

variable {off : Nat} {rest : Bytes} {r : Reader} {C : Crc32c}

theorem At.refill (h : At off rest r) : At 0 (rest.drop (kBlockSize - off)) r.refill where
  le := Nat.zero_le _
  backingStore := by simp [Reader.refill, ReadFile.read, h.file]
  file := by simp [Reader.refill, ReadFile.read, h.file]
  eof := by
    simp only [Reader.refill, ReadFile.read, h.file, List.length_take, Nat.sub_zero,
      decide_eq_decide]
    omega
  checksum := h.checksum
  initialOffset := h.initialOffset

/-- Fewer than `kHeaderSize` bytes before the end of the block: nothing but the end of the file
can follow in it. -/
theorem At.readPhysicalRecord_short (h : At off rest r) (hlen : rest.length < kHeaderSize)
    (hblock : rest.length < kBlockSize - off) (result : Bytes) :
    ∃ r', readPhysicalRecord C r result = some (kEof, result, r') := by
  have hback : r.backingStore.length < kHeaderSize := by
    rw [h.backingStore, List.length_take]
    omega
  have heof : r.eof = true := by rw [h.eof]; exact decide_eq_true hblock
  exact ⟨_, readPhysicalRecord_eof hback (by rw [heof]; exact Bool.false_ne_true)⟩

/-- The padding is skipped when anything follows it. -/
theorem At.skip (h : At off rest r)
    (hpad : padding off < rest.length ∨ kHeaderSize ≤ kBlockSize - off) :
    ∃ r', At (headerStart off) (rest.drop (padding off)) r' ∧
      ∀ result, readPhysicalRecord C r result = readPhysicalRecord C r' result := by
  rcases headerStart_cases off with ⟨hleft, hstart, hpadding⟩ | ⟨hleft, hstart, hpadding⟩
  · rw [kBlockSize_eq, kHeaderSize_eq, hpadding] at hpad
    have hlt : 32768 - off < rest.length := by omega
    have hback : r.backingStore.length < kHeaderSize := by
      rw [h.backingStore, List.length_take, kBlockSize_eq, kHeaderSize_eq]
      omega
    have heof : r.eof = false := by
      rw [h.eof, kBlockSize_eq]
      exact decide_eq_false (by omega)
    have hdata : (r.file.read kBlockSize).1.length ≠ 0 := by
      simp only [ReadFile.read, h.file, List.length_take, List.length_drop, kBlockSize_eq]
      omega
    refine ⟨r.refill, ?_, fun result => ?_⟩
    · rw [hstart, hpadding]
      exact h.refill
    · exact readPhysicalRecord_refill hback (by rw [heof]; rfl) hdata
  · rw [hstart, hpadding, List.drop_zero]
    exact ⟨r, h, fun _ => rfl⟩

/-- Only a padding is left and it fills the block: the refill finds nothing. -/
theorem At.readPhysicalRecord_none (h : At off rest r) (hlen : rest.length = kBlockSize - off)
    (hleft : kBlockSize - off < kHeaderSize) (result : Bytes) :
    readPhysicalRecord C r result = none := by
  have hback : r.backingStore.length < kHeaderSize := by
    rw [h.backingStore, List.length_take]
    omega
  have heof : r.eof = false := by
    rw [h.eof]
    exact decide_eq_false (by omega)
  have hdata : (r.file.read kBlockSize).1.length = 0 := by
    simp only [ReadFile.read, h.file, List.length_take, List.length_drop]
    omega
  exact Reader.readPhysicalRecord_none hback (by rw [heof]; rfl) hdata

/-! ## The header -/

/-- The two length bytes of a header. -/
theorem length_of_header {n : Nat} (h : n < 2 ^ 16) :
    ((UInt8.ofNat (n &&& 0xff)).toNat &&& 0xff) |||
      (((UInt8.ofNat (n >>> 8)).toNat &&& 0xff) <<< 8) = n := by
  have hff (x : Nat) : x &&& 0xff = x % 256 := Nat.and_two_pow_sub_one_eq_mod x 8
  have hlow : (UInt8.ofNat (n &&& 0xff)).toNat &&& 0xff = n % 256 := by
    rw [UInt8.toNat_ofNat', hff, hff]
    omega
  have hhigh : (UInt8.ofNat (n >>> 8)).toNat &&& 0xff = n / 256 := by
    rw [UInt8.toNat_ofNat', hff, Nat.shiftRight_eq_div_pow]
    omega
  rw [hlow, hhigh, Nat.or_comm, ← Nat.shiftLeft_add_eq_or_of_lt (by omega : n % 256 < 2 ^ 8),
    Nat.shiftLeft_eq]
  omega

theorem unsignedOfChar_code (type : RecordType) :
    unsignedOfChar (UInt8.ofNat type.code) = type.code := by
  cases type <;> rfl

/-- What the reader takes out of a header: the length, the type, the checksum and the bytes that
the checksum covers. -/
theorem header_fields (C : Crc32c) (type : RecordType) {payload : Bytes} (tail : Bytes)
    (hlen : payload.length < 2 ^ 16) :
    let header := WalWriter.header C type payload ++ tail
    (((header.getD 4 0).toNat &&& 0xff) ||| (((header.getD 5 0).toNat &&& 0xff) <<< 8)
        = payload.length) ∧
      unsignedOfChar (header.getD 6 0) = type.code ∧
      decodeFixed32 header = (C.crc32c (UInt8.ofNat type.code :: payload)).toNat ∧
      header.drop 6 = UInt8.ofNat type.code :: tail := by
  have hcrc : C.extend (C.crc32c [UInt8.ofNat type.code]) payload =
      C.crc32c (UInt8.ofNat type.code :: payload) := C.extend_crc32c _ _
  refine ⟨length_of_header hlen, unsignedOfChar_code type, ?_, rfl⟩
  rw [WalWriter.header, hcrc, List.append_assoc]
  exact decodeFixed32_encode (UInt32.toNat_lt _) _

/-- `ReadPhysicalRecord` parses a whole record. -/
theorem parseHeader_whole {type : RecordType} {payload tail result : Bytes}
    (hback : r.backingStore = WalWriter.header C type payload ++ (payload ++ tail))
    (hlen : payload.length < 2 ^ 16) (htype : type ≠ .zero) :
    parseHeader C r result = (type.code, payload, { r with backingStore := tail }) := by
  obtain ⟨hlength, hcode, hcrc, hdrop⟩ := header_fields C type (payload ++ tail) hlen
  have hzero : ¬ (type.code = RecordType.zero.code ∧ payload.length = 0) := by
    cases type <;> simp_all [RecordType.code]
  have hbody : (WalWriter.header C type payload ++ (payload ++ tail)).drop kHeaderSize =
      payload ++ tail := List.drop_left' (length_header C type payload)
  have hfits : ¬ kHeaderSize + payload.length >
      (WalWriter.header C type payload ++ (payload ++ tail)).length := by
    simp only [List.length_append, length_header]
    omega
  have hsum : ¬ (r.checksum = true ∧ (C.crc32c ((UInt8.ofNat type.code :: (payload ++ tail)).take
      (1 + payload.length))).toNat ≠ (C.crc32c (UInt8.ofNat type.code :: payload)).toNat) := by
    rw [Nat.add_comm, List.take_succ_cons, List.take_left]
    exact fun h => h.2 rfl
  simp only [parseHeader, hback, hlength, hcode, hcrc, hdrop]
  rw [if_neg hfits, if_neg hzero, if_neg hsum, ← List.drop_drop, hbody, List.take_left,
    List.drop_left]

/-- The header promises more than the block has, and the file has ended. -/
theorem parseHeader_torn {type : RecordType} {payload tail result : Bytes}
    (hback : r.backingStore = WalWriter.header C type payload ++ tail)
    (hlen : payload.length < 2 ^ 16) (htail : tail.length < payload.length) (heof : r.eof = true) :
    parseHeader C r result = (kEof, result, { r with backingStore := [] }) := by
  obtain ⟨hlength, -⟩ := header_fields C type tail hlen
  have hbig : kHeaderSize + payload.length > (WalWriter.header C type payload ++ tail).length := by
    simp only [List.length_append, length_header]
    omega
  simp only [parseHeader, hback, hlength]
  rw [if_pos hbig, heof]
  rfl

/-- A header in front of the buffer is not too short for one. -/
theorem not_short_of_header {type : RecordType} {payload tail : Bytes}
    (hback : r.backingStore = WalWriter.header C type payload ++ tail) :
    ¬ r.backingStore.length < kHeaderSize := by
  rw [hback, List.length_append, length_header]
  exact Nat.not_lt.mpr (Nat.le_add_right _ _)

theorem length_lt_of_fits {n : Nat} (hfits : off + kHeaderSize + n ≤ kBlockSize) : n < 2 ^ 16 := by
  rw [kBlockSize_eq, kHeaderSize_eq] at hfits
  omega

/-! ## One call on a chain -/

/-- A whole record, without padding in front of it. -/
theorem At.readPhysicalRecord_header {type : RecordType} {payload tail : Bytes}
    (h : At off (WalWriter.header C type payload ++ (payload ++ tail)) r)
    (hfits : off + kHeaderSize + payload.length ≤ kBlockSize) (htype : type ≠ .zero)
    (result : Bytes) :
    ∃ r', readPhysicalRecord C r result = some (type.code, payload, r') ∧
      At (off + kHeaderSize + payload.length) tail r' := by
  have hblock : kBlockSize - off =
      kHeaderSize + (payload.length + (kBlockSize - (off + kHeaderSize + payload.length))) := by
    omega
  have hheader := length_header C type payload
  have hback : r.backingStore = WalWriter.header C type payload ++
      (payload ++ tail.take (kBlockSize - (off + kHeaderSize + payload.length))) := by
    rw [h.backingStore, hblock, ← hheader, List.take_length_add_append, List.take_length_add_append]
  refine ⟨_, by rw [Reader.readPhysicalRecord_header (not_short_of_header hback),
    parseHeader_whole hback (length_lt_of_fits hfits) htype], ?_⟩
  refine ⟨hfits, rfl, ?_, ?_, h.checksum, h.initialOffset⟩
  · simp only [h.file]
    rw [hblock, ← hheader, List.drop_length_add_append, List.drop_length_add_append]
  · simp only [h.eof, List.length_append, hheader, decide_eq_decide]
    omega

/-- A whole record of the chain. -/
theorem At.readPhysicalRecord_whole {e : PhysRecord} {tail : Bytes}
    (h : At off (e.bytes C ++ tail) r) (hplaced : e.Placed off) (result : Bytes) :
    ∃ r', readPhysicalRecord C r result = some (e.type.code, e.payload, r') ∧
      At e.stop tail r' := by
  have hpad : padding off < (e.bytes C ++ tail).length := by
    rw [List.length_append, PhysRecord.length_bytes, PhysRecord.size, hplaced.trailer,
      kHeaderSize_eq]
    omega
  obtain ⟨r', hat, heq⟩ := h.skip (C := C) (.inl hpad)
  have hdrop : (e.bytes C ++ tail).drop (padding off) =
      WalWriter.header C e.type e.payload ++ (e.payload ++ tail) := by
    rw [PhysRecord.bytes, List.append_assoc, List.drop_left' (by simp [hplaced.trailer])]
    simp
  rw [hdrop, ← hplaced.blockOffset] at hat
  rw [heq]
  exact hat.readPhysicalRecord_header hplaced.fits hplaced.type result

/-- A torn record, without padding in front of it, or nothing at all. -/
theorem At.readPhysicalRecord_tornHeader {type : RecordType} {payload : Bytes} {n : Nat}
    (h : At off ((WalWriter.header C type payload ++ payload).take n) r)
    (hn : n < kHeaderSize + payload.length)
    (hfits : off + kHeaderSize + payload.length ≤ kBlockSize) (result : Bytes) :
    ∃ r', readPhysicalRecord C r result = some (kEof, result, r') := by
  have hheader := length_header C type payload
  have hlength : ((WalWriter.header C type payload ++ payload).take n).length = n := by
    simp only [List.length_take, List.length_append, hheader]
    omega
  by_cases hshort : n < kHeaderSize
  · exact h.readPhysicalRecord_short (by omega) (by omega) result
  · obtain ⟨k, rfl⟩ := Nat.exists_eq_add_of_le (Nat.not_lt.mp hshort)
    have hback : r.backingStore = WalWriter.header C type payload ++ payload.take k := by
      rw [h.backingStore, List.take_take, Nat.min_eq_right (by omega), ← hheader,
        List.take_length_add_append]
    have heof : r.eof = true := by
      rw [h.eof, hlength]
      exact decide_eq_true (by omega)
    have hcut : (payload.take k).length < payload.length := by
      rw [List.length_take]
      omega
    rw [Reader.readPhysicalRecord_header (not_short_of_header hback),
      parseHeader_torn hback (length_lt_of_fits hfits) hcut heof]
    exact ⟨_, rfl⟩

/-- What is behind the padding when the first record is cut off. -/
theorem drop_take_torn {e : PhysRecord} {es : List PhysRecord} {n : Nat} (hn : n < e.size) :
    (((e :: es).flatMap (PhysRecord.bytes C)).take n).drop e.trailer =
      (WalWriter.header C e.type e.payload ++ e.payload).take (n - e.trailer) := by
  rw [PhysRecord.size] at hn
  rw [List.drop_take, List.flatMap_cons, PhysRecord.bytes, List.append_assoc,
    List.drop_left' List.length_replicate, List.take_append_of_le_length]
  rw [List.length_append, length_header]
  omega

/-- A reader that has consumed all whole records meets the end of the file, except when the file
ends with a block. -/
theorem At.readPhysicalRecord_end {es : List PhysRecord} {n : Nat}
    (h : At off ((es.flatMap (PhysRecord.bytes C)).take n) r) (hoff : 0 < off)
    (hchain : Chained off es) (hn : n ≤ (es.flatMap (PhysRecord.bytes C)).length)
    (htorn : ∀ e ∈ es.head?, n < e.size) :
    (readPhysicalRecord C r []).map Prod.fst =
      if (off + n) % kBlockSize = 0 then none else some kEof := by
  have hrest : ((es.flatMap (PhysRecord.bytes C)).take n).length = n := by
    rw [List.length_take]
    omega
  have hle : off ≤ 32768 := h.le
  have hkey : 32768 - off < 7 ∧ n = 32768 - off ∨
      (off + n) % 32768 ≠ 0 ∧ ∃ r', readPhysicalRecord C r [] = some (kEof, [], r') := by
    by_cases hshort : n < 7 ∧ n < 32768 - off
    · obtain ⟨r', hr'⟩ := h.readPhysicalRecord_short (C := C) (by rw [hrest]; exact hshort.1)
        (by rw [hrest]; exact hshort.2) []
      exact .inr ⟨by omega, r', hr'⟩
    cases es with
    | nil =>
      simp only [List.flatMap_nil, List.length_nil, Nat.le_zero] at hn
      exact .inl (by omega)
    | cons e es =>
      obtain ⟨⟨htrailer, hoffset, hfits, htype⟩, -⟩ := hchain
      have hsize : n < e.trailer + kHeaderSize + e.payload.length := htorn e rfl
      rw [kBlockSize_eq, hoffset, kHeaderSize_eq] at hfits
      rw [htrailer, kHeaderSize_eq] at hsize
      rcases headerStart_cases off with ⟨hleft, hstart, hpad⟩ | ⟨hleft, hstart, hpad⟩
      · by_cases hall : n = 32768 - off
        · exact .inl ⟨hleft, hall⟩
        -- the padding is whole, the record behind it is torn
        obtain ⟨r₁, hat, heq⟩ := h.skip (C := C) (.inl (by rw [hrest]; omega))
        rw [← htrailer, drop_take_torn (htorn e rfl), htrailer, hstart] at hat
        obtain ⟨r', hr'⟩ := hat.readPhysicalRecord_tornHeader
          (by rw [kHeaderSize_eq]; omega) (by rw [kBlockSize_eq, kHeaderSize_eq]; omega) []
        exact .inr ⟨by omega, r', by rw [heq, hr']⟩
      · have htake := @drop_take_torn C e es n (htorn e rfl)
        rw [htrailer, hpad, List.drop_zero, Nat.sub_zero] at htake
        rw [htake] at h
        obtain ⟨r', hr'⟩ := h.readPhysicalRecord_tornHeader
          (by rw [kHeaderSize_eq]; omega) (by rw [kBlockSize_eq, kHeaderSize_eq]; omega) []
        exact .inr ⟨by omega, r', hr'⟩
  rw [kBlockSize_eq]
  rcases hkey with ⟨hleft, rfl⟩ | ⟨hmod, r', hr'⟩
  · rw [h.readPhysicalRecord_none hrest hleft, if_pos (by omega)]
    rfl
  · rw [hr', if_neg hmod]
    rfl

end Reader

/-! ## Torn tails -/

/-- The records that lie wholly in the first `n` bytes. -/
def contained : Nat → List PhysRecord → List PhysRecord
  | _, [] => []
  | n, e :: es => if e.size ≤ n then e :: contained (n - e.size) es else []

namespace Reader
variable {off : Nat} {r : Reader} {C : Crc32c}

/-- The successive calls of `ReadPhysicalRecord` on the first `n` bytes of a chain return the
records wholly contained in them, and then the end of the file, unless a block ends there. -/
theorem At.readPhysicals_contained {es : List PhysRecord} {n : Nat}
    (h : At off ((es.flatMap (PhysRecord.bytes C)).take n) r) (hoff : 0 < off)
    (hchain : Chained off es) (hn : n ≤ (es.flatMap (PhysRecord.bytes C)).length) :
    ∃ r', readPhysicals C (contained n es).length r =
        some ((contained n es).map fun e => (e.type.code, e.payload), r') ∧
      (readPhysicalRecord C r' []).map Prod.fst =
        if (off + n) % kBlockSize = 0 then none else some kEof := by
  induction es generalizing off n r with
  | nil => exact ⟨r, rfl, h.readPhysicalRecord_end hoff hchain hn (by simp)⟩
  | cons e es ih =>
    by_cases hsize : e.size ≤ n
    · obtain ⟨k, rfl⟩ := Nat.exists_eq_add_of_le hsize
      have hbytes := PhysRecord.length_bytes C e
      rw [List.flatMap_cons, List.length_append, hbytes] at hn
      rw [List.flatMap_cons, ← hbytes, List.take_length_add_append] at h
      obtain ⟨r₁, hread, hat⟩ := h.readPhysicalRecord_whole hchain.1 []
      have hpos : 0 < e.stop := by simp [PhysRecord.stop, kHeaderSize_eq]
      obtain ⟨r', hreads, hend⟩ := ih hat hpos hchain.2 (by omega)
      refine ⟨r', ?_, ?_⟩
      · simp [contained, readPhysicals, hread, hreads]
      · have hle := h.le
        obtain ⟨htrailer, hoffset, -, -⟩ := hchain.1
        have hmod : (off + (e.size + k)) % kBlockSize = (e.stop + k) % kBlockSize := by
          rw [PhysRecord.size, PhysRecord.stop, htrailer, hoffset, kBlockSize_eq, kHeaderSize_eq]
          rw [kBlockSize_eq] at hle
          rcases headerStart_cases off with ⟨_, hs, hp⟩ | ⟨_, hs, hp⟩ <;> omega
        rw [hmod, hend]
    · have hnone : contained n (e :: es) = [] := if_neg hsize
      rw [hnone]
      exact ⟨r, rfl, h.readPhysicalRecord_end hoff hchain hn (by simpa using hsize)⟩

end Reader

/-! ## The framing theorem -/

/-- The payloads emitted for each record concatenate to it. -/
def Concatenates (emitted : List PhysRecord) (records : List Bytes) : Prop :=
  ∃ groups : List (List PhysRecord), groups.flatten = emitted ∧
    groups.map (·.flatMap PhysRecord.payload) = records

/-- On the file contents `p`, the successive calls of `ReadPhysicalRecord` first return the records
wholly contained in `p`; where the next call returns, it is not with a record. -/
def ReadsContained (C : Crc32c) (emitted : List PhysRecord) (p : Bytes) : Prop :=
  ∃ r, Reader.readPhysicals C (contained p.length emitted).length (Reader.new ⟨p⟩ true 0) =
      some ((contained p.length emitted).map fun e => (e.type.code, e.payload), r) ∧
    ∀ code frame r', Reader.readPhysicalRecord C r [] = some (code, frame, r') →
      code = Reader.kEof ∨ code = Reader.kBadRecord

/-- The log that `w` has written for `records` is framed as its format promises, as far as the
prefix `p` of its file shows. -/
structure LogFramed (C : Crc32c) (records : List Bytes) (w : WalWriter WritableFile)
    (p : Bytes) : Prop where
  inBlock : ∀ e ∈ w.emitted, e.blockOffset + kHeaderSize + e.payload.length ≤ kBlockSize
  concatenates : Concatenates w.emitted records
  reads : ReadsContained C w.emitted p

theorem Chained.inBlock {off : Nat} {es : List PhysRecord} (h : Chained off es) :
    ∀ e ∈ es, e.blockOffset + kHeaderSize + e.payload.length ≤ kBlockSize := by
  induction es generalizing off with
  | nil => simp
  | cons e es ih =>
    intro e' he'
    rcases List.mem_cons.mp he' with rfl | he'
    · exact h.1.fits
    · exact ih h.2 e' he'

theorem emission_payload (off : Nat) (records : List Bytes) :
    (WalWriter.emission off records).flatMap PhysRecord.payload =
      records.flatMap fun str => str.take (str.length % 2 ^ 32) := by
  induction records generalizing off with
  | nil => rfl
  | cons str records ih =>
    rw [WalWriter.emission, List.flatMap_append, fragments_payload, ih, List.flatMap_cons]

/-- Keeping the length in 32 bits loses bytes as soon as it does not fit. -/
theorem length_lt_of_flatMap_take {records : List Bytes}
    (h : records.flatten.length ≤
      (records.flatMap fun str => str.take (str.length % 2 ^ 32)).length) :
    ∀ str ∈ records, str.length < 2 ^ 32 := by
  have hle (rs : List Bytes) : (rs.flatMap fun str => str.take (str.length % 2 ^ 32)).length ≤
      rs.flatten.length := by
    induction rs with
    | nil => simp
    | cons str rs ih =>
      simp only [List.flatMap_cons, List.flatten_cons, List.length_append, List.length_take]
      omega
  induction records with
  | nil => simp
  | cons str records ih =>
    have htail := hle records
    simp only [List.flatMap_cons, List.flatten_cons, List.length_append, List.length_take] at h
    intro str' hstr'
    rcases List.mem_cons.mp hstr' with rfl | hstr'
    · omega
    · exact ih (by omega) str' hstr'

theorem concatenates_emission_iff (off : Nat) (records : List Bytes) :
    Concatenates (WalWriter.emission off records) records ↔
      ∀ str ∈ records, str.length < 2 ^ 32 := by
  constructor
  · rintro ⟨groups, hgroups, hmap⟩
    apply length_lt_of_flatMap_take
    rw [← emission_payload off, ← hgroups, ← hmap, List.flatMap_def, List.map_flatten,
      List.flatten_flatten, List.map_map]
    exact Nat.le_of_eq rfl
  · intro hlen
    induction records generalizing off with
    | nil => exact ⟨[], rfl, rfl⟩
    | cons str records ih =>
      obtain ⟨groups, hgroups, hmap⟩ := ih (endOffset off (fragments off
        (str.take (str.length % 2 ^ 32)))) fun s hs => hlen s (List.mem_cons_of_mem _ hs)
      refine ⟨fragments off (str.take (str.length % 2 ^ 32)) :: groups, ?_, ?_⟩
      · rw [List.flatten_cons, hgroups, WalWriter.emission]
      · rw [List.map_cons, fragments_payload, hmap,
          Nat.mod_eq_of_lt (hlen str List.mem_cons_self), List.take_length]

theorem readsContained_of_chained {C : Crc32c} {es : List PhysRecord} {p : Bytes}
    (hchain : Chained 0 es) (hp : p <+: es.flatMap (PhysRecord.bytes C)) : ReadsContained C es p := by
  have htake : p = (es.flatMap (PhysRecord.bytes C)).take p.length := List.prefix_iff_eq_take.mp hp
  have hat : Reader.At kBlockSize ((es.flatMap (PhysRecord.bytes C)).take p.length)
      (Reader.new ⟨p⟩ true 0) := htake ▸ Reader.at_new p
  obtain ⟨r, hreads, hend⟩ := hat.readPhysicals_contained (by decide) hchain.of_zero hp.length_le
  refine ⟨r, hreads, fun code frame r' hlast => .inl ?_⟩
  rw [hlast, Option.map_some] at hend
  split at hend
  · cases hend
  · exact Option.some.inj hend

/-- `Appendrecord` terminates on every list of records, its physical records lie inside their
blocks, and every prefix of the file is framed as promised for exactly the lists of records whose
lengths fit a `uint32_t`. -/
theorem appendAll_logFramed_iff (C : Crc32c) (records : List Bytes) :
    ∃ w, WalWriter.appendAll C (.new WritableFile.empty) records = some w ∧
      ∀ p, p <+: w.file.disk → (LogFramed C records w p ↔ ∀ str ∈ records, str.length < 2 ^ 32) := by
  refine ⟨_, WalWriter.appendAll_new C records, fun p hp => ?_⟩
  have hchain := emission_chained 0 records
  rw [← concatenates_emission_iff 0 records]
  exact ⟨fun h => h.concatenates, fun h => ⟨hchain.inBlock, h, readsContained_of_chained hchain hp⟩⟩

/-- Of a record of `2 ^ 32` bytes nothing is written. -/
theorem not_logFramed_of_long :
    ∃ w, WalWriter.appendAll .castagnoli (.new WritableFile.empty) [List.replicate (2 ^ 32) 0] =
        some w ∧
      ¬ LogFramed .castagnoli [List.replicate (2 ^ 32) 0] w [] := by
  refine ⟨_, WalWriter.appendAll_new _ _, fun h => ?_⟩
  have hlen := (concatenates_emission_iff 0 _).mp h.concatenates _ List.mem_cons_self
  rw [List.length_replicate] at hlen
  exact Nat.lt_irrefl _ hlen

/-! ## The round trip -/

/-- Each record ends in the block in which it begins, and the file does not end with a block. -/
def FitsBlocks : Nat → List Bytes → Prop
  | off, [] => off ≠ kBlockSize
  | off, str :: records =>
    str.length ≤ available off ∧ FitsBlocks (headerStart off + kHeaderSize + str.length) records

/-- One record has to leave a byte of its block. -/
theorem fitsBlocks_singleton {str : Bytes} : FitsBlocks kBlockSize [str] ↔ str.length < 32761 := by
  have havailable : available kBlockSize = 32761 := by decide
  have hstart : headerStart kBlockSize = 0 := by decide
  rw [FitsBlocks, FitsBlocks, havailable, hstart, kBlockSize_eq, kHeaderSize_eq]
  omega

/-- What `ReadRecord` makes of a chain: the payload of each full record up to the first record that
is not full. -/
def readBack : Nat → List PhysRecord → Option (List Bytes)
  | off, [] => if off = kBlockSize then none else some []
  | _, e :: es => if e.type = .full then (readBack e.stop es).map (e.payload :: ·) else some []

namespace Reader
variable {off : Nat} {r : Reader} {C : Crc32c}

theorem At.readRecord_whole {e : PhysRecord} {tail : Bytes} (h : At off (e.bytes C ++ tail) r)
    (hplaced : e.Placed off) (htype : e.type = .full ∨ e.type = .first) :
    ∃ r', readRecord C r = some (decide (e.type = .full), e.payload, r') ∧ At e.stop tail r' := by
  obtain ⟨r', hread, hat⟩ := h.readPhysicalRecord_whole hplaced []
  have hskip : ¬ r.lastRecordOffset < r.initialOffset := by
    rw [h.initialOffset]
    exact Nat.not_lt_zero _
  rcases htype with htype | htype <;> rw [htype] at hread
  · refine ⟨{ r' with lastRecordOffset := r'.endOfBufferOffset - r'.backingStore.length -
      e.payload.length }, by simp [readRecord, hskip, hread, htype], ?_⟩
    exact ⟨hat.le, hat.backingStore, hat.file, hat.eof, hat.checksum, hat.initialOffset⟩
  · exact ⟨r', by simp [readRecord, hskip, hread, htype, RecordType.code], hat⟩

theorem At.readRecords_eq {es : List PhysRecord} (h : At off (es.flatMap (PhysRecord.bytes C)) r)
    (hoff : 0 < off) (hchain : Chained off es)
    (htype : ∀ e ∈ es, e.type = .full ∨ e.type = .first) :
    readRecords C r = readBack off es := by
  induction es generalizing off r with
  | nil =>
    have hskip : ¬ r.lastRecordOffset < r.initialOffset := by
      rw [h.initialOffset]
      exact Nat.not_lt_zero _
    have hend := At.readPhysicalRecord_end (n := 0) (C := C) (by simpa using h) hoff
      hchain (by simp) (by simp)
    have hmod : off % kBlockSize = 0 ↔ off = kBlockSize := by
      have := h.le
      rw [kBlockSize_eq] at this ⊢
      omega
    simp only [Nat.add_zero, hmod] at hend
    rw [readRecords, readBack]
    by_cases hfull : off = kBlockSize
    · rw [if_pos hfull, Option.map_eq_none_iff] at hend
      simp [readRecord, hskip, hend, if_pos hfull]
    · rw [if_neg hfull, Option.map_eq_some_iff] at hend
      obtain ⟨⟨code, frame, r'⟩, hread, rfl⟩ := hend
      simp [readRecord, hskip, hread, hfull, kEof, RecordType.code]
  | cons e es ih =>
    obtain ⟨r', hread, hat⟩ := h.readRecord_whole hchain.1 (htype e List.mem_cons_self)
    have hpos : 0 < e.stop := by simp [PhysRecord.stop, kHeaderSize_eq]
    rw [readRecords, hread, readBack]
    by_cases hfull : e.type = .full
    · have htail := ih hat hpos hchain.2 fun e' he' => htype e' (List.mem_cons_of_mem _ he')
      simp only [hfull, decide_true, Option.bind_eq_bind, Option.bind_some, if_true, htail]
      cases readBack e.stop es <;> rfl
    · simp [hfull]

end Reader

theorem readBack_cons {off : Nat} {e : PhysRecord} {es : List PhysRecord} {str : Bytes}
    {records : List Bytes} (h : readBack off (e :: es) = some (str :: records)) :
    e.type = .full ∧ e.payload = str := by
  rw [readBack] at h
  split at h
  · next htype =>
    obtain ⟨tail, -, heq⟩ := Option.map_eq_some_iff.mp h
    exact ⟨htype, (List.cons.inj heq).1⟩
  · cases h

/-- What is read first is the payload of a physical record. -/
theorem mem_of_readBack {off : Nat} {es : List PhysRecord} {str : Bytes} {records : List Bytes}
    (h : readBack off es = some (str :: records)) : ∃ e ∈ es, e.payload = str := by
  cases es with
  | nil =>
    rw [readBack] at h
    split at h <;> cases h
  | cons e es => exact ⟨e, List.mem_cons_self, (readBack_cons h).2⟩

theorem readBack_emission_iff {off : Nat} (hoff : off ≤ kBlockSize) {records : List Bytes}
    (hne : ∀ str ∈ records, str ≠ []) :
    readBack off (WalWriter.emission off records) = some records ↔ FitsBlocks off records := by
  induction records generalizing off with
  | nil =>
    simp only [WalWriter.emission, readBack, FitsBlocks]
    split <;> simp_all
  | cons str records ih =>
    have hstr := hne str List.mem_cons_self
    rw [FitsBlocks, WalWriter.emission]
    by_cases hfits : str.length ≤ available off
    · have hav := available_le off
      have havEq := available_eq off
      rw [kBlockSize_eq, kHeaderSize_eq] at hav
      rw [fragments_take_of_fits hstr hfits,
        ← ih (by omega) fun s hs => hne s (List.mem_cons_of_mem _ hs)]
      simp [readBack, endOffset, PhysRecord.stop, hfits]
    · -- the first payload read back is shorter than the record
      refine iff_of_false (fun hread => ?_) (fun h => hfits h.1)
      by_cases hptr : str.take (str.length % 2 ^ 32) = []
      · rw [hptr, fragments_nil, List.nil_append] at hread
        obtain ⟨e, he, rfl⟩ := mem_of_readBack hread
        have hblock := (emission_chained _ _).inBlock e he
        have hpos := List.length_pos_iff.mpr hstr
        have hlen := congrArg List.length hptr
        rw [kBlockSize_eq, kHeaderSize_eq] at hblock
        rw [List.length_take, List.length_nil] at hlen
        omega
      · rw [fragments_of_ne hptr, List.cons_append] at hread
        obtain ⟨-, hpayload⟩ := readBack_cons hread
        have hlen := congrArg List.length hpayload
        rw [length_take_available] at hlen
        omega

theorem emission_zero (records : List Bytes) :
    WalWriter.emission 0 records = WalWriter.emission kBlockSize records := by
  induction records with
  | nil => rfl
  | cons str records ih =>
    simp only [WalWriter.emission]
    by_cases hptr : str.take (str.length % 2 ^ 32) = []
    · rw [hptr, fragments_nil, fragments_nil]
      exact ih
    · rw [fragments_of_ne hptr, fragments_of_ne hptr]
      rfl

/-- The file that holds an emission reads back as `readBack` says. -/
theorem readRecords_emission (C : Crc32c) (records : List Bytes) :
    Reader.readRecords C
        (.new ⟨(WalWriter.emission 0 records).flatMap (PhysRecord.bytes C)⟩ true 0) =
      readBack kBlockSize (WalWriter.emission kBlockSize records) := by
  rw [emission_zero]
  refine (Reader.at_new _).readRecords_eq (by decide) (emission_chained _ _) fun e he => ?_
  rw [emission_type he]
  split
  · exact .inr rfl
  · exact .inl rfl

/-- Reading a log back gives the list of records appended to it for exactly the lists whose records
stay inside their blocks, in a file that does not end with a block. -/
theorem readRecords_appendAll_iff (C : Crc32c) (records : List Bytes)
    (hne : ∀ str ∈ records, str ≠ []) :
    ∃ w, WalWriter.appendAll C (.new WritableFile.empty) records = some w ∧
      (Reader.readRecords C (.new ⟨w.file.disk⟩ true 0) = some records ↔
        FitsBlocks kBlockSize records) := by
  refine ⟨_, WalWriter.appendAll_new C records, ?_⟩
  rw [readRecords_emission, readBack_emission_iff (Nat.le_refl _) hne]

/-- Two records that fit one block come back. -/
theorem readRecords_appendAll_two :
    ∃ w, WalWriter.appendAll .castagnoli (.new WritableFile.empty) [[1, 2, 3], [4]] = some w ∧
      Reader.readRecords .castagnoli (.new ⟨w.file.disk⟩ true 0) = some [[1, 2, 3], [4]] := by
  obtain ⟨w, hw, hiff⟩ := readRecords_appendAll_iff .castagnoli [[1, 2, 3], [4]] (by decide)
  exact ⟨w, hw, hiff.mpr ⟨by decide, by decide, by rw [FitsBlocks]; decide⟩⟩

/-- A record of 40000 bytes is written as two full records and does not come back. -/
theorem readRecords_ne_of_two_blocks :
    ∃ w, WalWriter.appendAll .castagnoli (.new WritableFile.empty) [List.replicate 40000 0] =
        some w ∧
      Reader.readRecords .castagnoli (.new ⟨w.file.disk⟩ true 0) ≠
        some [List.replicate 40000 0] := by
  refine ⟨_, WalWriter.appendAll_new _ _, fun h => ?_⟩
  have hne : ∀ str ∈ [List.replicate 40000 (0 : UInt8)], str ≠ [] := by
    intro str hstr
    rw [List.mem_singleton.mp hstr, ← List.length_pos_iff, List.length_replicate]
    decide
  rw [readRecords_emission, readBack_emission_iff (Nat.le_refl _) hne, FitsBlocks,
    List.length_replicate] at h
  exact absurd h.1 (by decide)

/-! ## The bytes of a log -/

/-- The bytes that a log of these records has. -/
def logBytes (C : Crc32c) (records : List Bytes) : Bytes :=
  (WalWriter.emission 0 records).flatMap (PhysRecord.bytes C)

/-- The records that have bytes: an empty one has none. -/
def stored (records : List Bytes) : List Bytes := records.filter (· ≠ [])

namespace WalWriter

theorem emission_append (off : Nat) (records records' : List Bytes) :
    emission off (records ++ records') =
      emission off records ++ emission (endOffset off (emission off records)) records' := by
  induction records generalizing off with
  | nil => rfl
  | cons str records ih =>
    simp only [List.cons_append, emission, ih, endOffset_append, List.append_assoc]

theorem emission_stored (off : Nat) (records : List Bytes) :
    emission off (stored records) = emission off records := by
  induction records generalizing off with
  | nil => rfl
  | cons str records ih =>
    rw [stored] at ih ⊢
    by_cases hstr : str = []
    · rw [List.filter_cons_of_neg (by simp [hstr]), ih, emission, hstr, List.take_nil,
        fragments_nil, List.nil_append, endOffset]
    · rw [List.filter_cons_of_pos (by simp [hstr]), emission, emission, ih]

end WalWriter

theorem logBytes_stored (C : Crc32c) (records : List Bytes) :
    logBytes C (stored records) = logBytes C records := by
  rw [logBytes, WalWriter.emission_stored, logBytes]

theorem ne_nil_of_mem_stored {records : List Bytes} {str : Bytes} (h : str ∈ stored records) :
    str ≠ [] := of_decide_eq_true (List.mem_filter.mp h).2

/-- A log shows all its records for exactly those that stay inside their blocks. -/
theorem readRecords_logBytes_iff (C : Crc32c) (records : List Bytes) :
    Reader.readRecords C (.new ⟨logBytes C records⟩ true 0) = some (stored records) ↔
      FitsBlocks kBlockSize (stored records) := by
  rw [← readBack_emission_iff (Nat.le_refl _) fun str => ne_nil_of_mem_stored,
    ← readRecords_emission C, logBytes, WalWriter.emission_stored]

end Yubindb
