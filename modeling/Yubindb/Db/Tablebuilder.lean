import Yubindb.Db.Block
import Yubindb.Db.FilterBlock
import Yubindb.Db.Walog

/-!
# Building table files

`src/db/block.h`, `src/db/block.cpp`, `src/db/memtable.h`, `src/db/memtable.cpp`, `src/util/options.h`:
`Tablebuilder` writes blocks, each behind the last one and with a type and a checksum, then the filter,
the metaindex, the index and the footer; `ReadBlock` reads one block back.
-/

namespace Yubindb

/-- `enum CompressionType`. -/
inductive CompressionType
  | noCompression | snappyCompression
  deriving DecidableEq, Repr

/-- The enumerator's value. -/
def CompressionType.code : CompressionType → ℕ
  | .noCompression => 0
  | .snappyCompression => 1

/-- The fields of `Options` that the tables use. -/
structure Options where
  blockSize : ℕ := 4 * 1024
  blockRestartInterval : ℕ := 16
  compression : CompressionType := .snappyCompression
  deriving DecidableEq, Repr

/-- `Options::Options(const Options&)`, which does not copy the compression. -/
def Options.copy (opt : Options) : Options := { opt with compression := .snappyCompression }

/-- What tables take from elsewhere: `crc32c`, `snappy`, the filter `bloomfit` with `std::hash`, and
what a view of a string shows when the string has been cleared. Of that the language fixes nothing
but the length of the view. -/
structure TableEnv where
  crc : Crc32c
  compress : Bytes → Bytes
  getUncompressedLength : Bytes → Option ℕ
  uncompress : Bytes → Option Bytes
  bloomfit : BloomFilter
  hash : Bytes → UInt32
  cleared : Bytes → Bytes
  length_cleared : ∀ s, (cleared s).length = s.length

/-- An environment to evaluate the tables in: its `snappy` puts one byte in front, clearing a string
ends it at the front, as libstdc++ does, and the filter is the one that `DB::Open` makes. -/
def TableEnv.sample : TableEnv where
  crc := .castagnoli
  compress x := 0 :: x
  getUncompressedLength x := if x = [] then none else some (x.length - 1)
  uncompress x := if x = [] then none else some x.tail
  bloomfit := ⟨10, 6, by decide, by decide⟩
  hash x := x.foldl (fun h b => h * 31 + b.toUInt32) 0
  cleared x := List.replicate (min 1 x.length) 0 ++ x.drop 1
  length_cleared x := by simp; omega

/-! ## Handles and the footer -/

/-- `BlockHandle`. -/
structure BlockHandle where
  offset : ℕ := 0
  size : ℕ := 0
  deriving DecidableEq, Repr

namespace BlockHandle

/-- `EncodeTo`: what it appends. -/
def encodeTo (h : BlockHandle) : Bytes := putVarint64 h.offset ++ putVarint64 h.size

/-- `DecodeFrom`. -/
def decodeFrom (input : Bytes) : Option (BlockHandle × Bytes) := do
  let (offset, input) ← getVarint64 input
  let (size, input) ← getVarint64 input
  return ({ offset, size }, input)

/-- `kMaxEncodedLength`. -/
def kMaxEncodedLength : ℕ := 10 + 10

end BlockHandle

/-- `kTableMagicNumber`. -/
def kTableMagicNumber : ℕ := 0xdb4775248b80fb57

/-- `Footer`. -/
structure Footer where
  metaindexHandle : BlockHandle
  indexHandle : BlockHandle
  deriving DecidableEq, Repr

/-- `Footer::EncodeTo`, on an empty string. `resize` fills with zeros, or cuts. -/
def Footer.encodeTo (f : Footer) : Bytes :=
  let handles := f.metaindexHandle.encodeTo ++ f.indexHandle.encodeTo
  (handles ++ List.replicate (2 * BlockHandle.kMaxEncodedLength) 0).take
      (2 * BlockHandle.kMaxEncodedLength) ++
    encodeFixed32 (kTableMagicNumber % 2 ^ 32) ++
    encodeFixed32 ((kTableMagicNumber >>> 32) % 2 ^ 32)

/-! ## The builder -/

/-- `kBlockBackSize`. -/
def kBlockBackSize : ℕ := 5

/-- `Tablebuilder`. -/
structure Tablebuilder (F : Type) where
  options : Options
  indexoptions : Options
  file : F
  offset : ℕ := 0
  state : State := .ok
  dataBlock : Blockbuilder := {}
  indexBlock : Blockbuilder := {}
  lastKey : Bytes := []
  numEntries : ℕ := 0
  closed : Bool := false
  filterBlock : FilterBlockbuilder := {}
  pendingIndexEntry : Bool := false
  pendingHandle : BlockHandle := {}

namespace Tablebuilder
variable {F : Type} [AppendFile F] (E : TableEnv)

/-- `Tablebuilder::Tablebuilder`. -/
def new (opt : Options) (file : F) : Tablebuilder F where
  options := opt.copy
  indexoptions := { opt.copy with blockRestartInterval := 1 }
  file := file

/-- The type and the checksum behind a block. -/
def blockBack (contents : Bytes) (type : CompressionType) : Bytes :=
  UInt8.ofNat type.code ::
    encodeFixed32 (E.crc.extend (E.crc.crc32c contents) [UInt8.ofNat type.code]).toNat

/-- `WriteRawBlock`. -/
def writeRawBlock (b : Tablebuilder F) (contents : Bytes) (type : CompressionType) :
    BlockHandle × Tablebuilder F :=
  let handle : BlockHandle := { offset := b.offset, size := contents.length }
  let (state, file) := AppendFile.append b.file contents
  if state = .ok then
    let (state, file) := AppendFile.append file (blockBack E contents type)
    if state = .ok then
      (handle, { b with state, file, offset := b.offset + (contents.length + kBlockBackSize) })
    else (handle, { b with state, file })
  else (handle, { b with state, file })

/-- `WriteBlock`, up to the `Reset` of the block. `snappy::Compress` returns the length of its output;
what is written then is a view of `compressed_output`, which has just been cleared. -/
def writeBlock (b : Tablebuilder F) (block : Blockbuilder) : BlockHandle × Tablebuilder F :=
  let raw := block.finish
  match b.options.compression with
  | .noCompression => b.writeRawBlock E raw .noCompression
  | .snappyCompression =>
    let compressed := E.compress raw
    if compressed.length ≠ 0 then b.writeRawBlock E (E.cleared compressed) .snappyCompression
    else b.writeRawBlock E raw .noCompression

/-- `Flush`. -/
def flush (b : Tablebuilder F) : Tablebuilder F :=
  if b.dataBlock.empty then b
  else
    let (handle, b) := b.writeBlock E b.dataBlock
    { b with
      dataBlock := .reset
      pendingHandle := handle
      pendingIndexEntry := false
      file := (AppendFile.flush b.file).2
      filterBlock := b.filterBlock.startBlock E.bloomfit E.hash b.offset }

/-- The entry of the index that `Add` and `Finish` owe for the last block. -/
def addIndexEntry (b : Tablebuilder F) (key : Bytes) : Tablebuilder F :=
  if b.pendingIndexEntry then
    { b with
      indexBlock := b.indexBlock.add b.indexoptions.blockRestartInterval key b.pendingHandle.encodeTo
      pendingIndexEntry := false }
  else b

/-- `Add`. -/
def add (b : Tablebuilder F) (key val : Bytes) : Tablebuilder F :=
  let b := b.addIndexEntry key
  let b := { b with
    filterBlock := b.filterBlock.addKey key
    lastKey := key
    numEntries := b.numEntries + 1
    dataBlock := b.dataBlock.add b.options.blockRestartInterval key val }
  if b.dataBlock.currentSizeEstimate ≥ b.options.blockSize then b.flush E else b

/-- The filter block in `Finish`. -/
def finishFilter (b : Tablebuilder F) : BlockHandle × Tablebuilder F :=
  if b.state = .ok then
    b.writeRawBlock E (b.filterBlock.finish E.bloomfit E.hash) .noCompression
  else ({}, b)

/-- The key of the filter in the metaindex block, `"filter.bloom"`. -/
def filterKey : Bytes := [102, 105, 108, 116, 101, 114, 46, 98, 108, 111, 111, 109]

/-- The metaindex block in `Finish`. -/
def finishMetaindex (b : Tablebuilder F) (filterHandle : BlockHandle) :
    BlockHandle × Tablebuilder F :=
  if b.state = .ok then
    b.writeBlock E (Blockbuilder.add b.options.blockRestartInterval {} filterKey filterHandle.encodeTo)
  else ({}, b)

/-- The index block in `Finish`. -/
def finishIndex (b : Tablebuilder F) : BlockHandle × Tablebuilder F :=
  if b.state = .ok then
    let b := b.addIndexEntry b.lastKey
    let (handle, b) := b.writeBlock E b.indexBlock
    (handle, { b with indexBlock := .reset })
  else ({}, b)

/-- The footer in `Finish`. -/
def finishFooter (b : Tablebuilder F) (footer : Footer) : Tablebuilder F :=
  if b.state = .ok then
    let (state, file) := AppendFile.append b.file footer.encodeTo
    if state = .ok then { b with state, file, offset := b.offset + footer.encodeTo.length }
    else { b with state, file }
  else b

/-- `Finish`; the result is its `state`. -/
def finish (b : Tablebuilder F) : Tablebuilder F :=
  let b := { b.flush E with closed := true }
  let (filterHandle, b) := b.finishFilter E
  let (metaindexHandle, b) := b.finishMetaindex E filterHandle
  let (indexHandle, b) := b.finishIndex E
  b.finishFooter { metaindexHandle, indexHandle }

/-- A sequence of `Add`. -/
def addAll (b : Tablebuilder F) (es : List (Bytes × Bytes)) : Tablebuilder F :=
  es.foldl (fun b e => b.add E e.1 e.2) b

variable {E}

/-- Writing changes the state, the file and the offset only. -/
theorem writeRawBlock_frame (b : Tablebuilder F) (contents : Bytes) (type : CompressionType) :
    ∃ state file offset, b.offset ≤ offset ∧ b.writeRawBlock E contents type =
      (⟨b.offset, contents.length⟩, { b with state, file, offset }) := by
  rw [writeRawBlock]
  dsimp only
  split
  · split
    · exact ⟨_, _, _, Nat.le_add_right _ _, rfl⟩
    · exact ⟨_, _, _, Nat.le_refl _, rfl⟩
  · exact ⟨_, _, _, Nat.le_refl _, rfl⟩

theorem writeBlock_cases (b : Tablebuilder F) (block : Blockbuilder) :
    (b.options.compression = .snappyCompression ∧ b.writeBlock E block =
      b.writeRawBlock E (E.cleared (E.compress block.finish)) .snappyCompression) ∨
    b.writeBlock E block = b.writeRawBlock E block.finish .noCompression := by
  rw [writeBlock]
  cases b.options.compression with
  | noCompression => exact .inr rfl
  | snappyCompression =>
    dsimp only
    split
    · exact .inl ⟨rfl, rfl⟩
    · exact .inr rfl

theorem writeBlock_frame (b : Tablebuilder F) (block : Blockbuilder) :
    ∃ size state file offset, b.offset ≤ offset ∧ b.writeBlock E block =
      (⟨b.offset, size⟩, { b with state, file, offset }) := by
  rcases b.writeBlock_cases block with ⟨-, h⟩ | h
  · rw [h]
    exact ⟨_, b.writeRawBlock_frame _ _⟩
  · rw [h]
    exact ⟨_, b.writeRawBlock_frame _ _⟩

end Tablebuilder

/-! ## Reading blocks -/

/-- `ReadBlock`, of a file with these bytes: the return value and `*result`. The return value is `none`
where control runs off the end of the function. -/
def readBlock (E : TableEnv) (file : Bytes) (handle : BlockHandle) : Option State × Bytes :=
  let n := handle.size
  let content := (file.drop handle.offset).take (n + kBlockBackSize)
  if content.length ≠ n + kBlockBackSize then (some .ok, [])
  else if decodeFixed32 (content.drop (n + 1)) ≠ (E.crc.crc32c (content.take (n + 1))).toNat then
    (some .corruption, [])
  else if (content.getD n 0).toNat = CompressionType.noCompression.code then (none, content)
  else if (content.getD n 0).toNat = CompressionType.snappyCompression.code then
    match E.getUncompressedLength (content.take n) with
    | some _ => (some .corruption, [])
    | none =>
      match E.uncompress (content.take n) with
      | none => (some .corruption, [])
      -- `len` is still zero
      | some _ => (none, [])
  else (some .corruption, [])

end Yubindb
