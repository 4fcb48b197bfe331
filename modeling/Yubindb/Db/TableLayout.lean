import Yubindb.Db.TableFilter
import Yubindb.Theory.Tiling

/-!
# The layout of a table file

`src/db/memtable.cpp`: the blocks that a run of `Add` and `Finish` hands to `WriteRawBlock`, where they
are in the file, and the footer behind them, with `Footer::DecodeFrom`.
-/

namespace Yubindb
open Tiling

/-! ## The footer -/

/-- `Footer::kEncodedLength`. -/
def Footer.kEncodedLength : ℕ := 2 * BlockHandle.kMaxEncodedLength + 8

/-- `Footer::DecodeFrom`: the footer and what is left of `*input`, or the status of an error. -/
def Footer.decodeFrom (input : Bytes) : Except State (Footer × Bytes) :=
  let magic := input.drop (kEncodedLength - 8)
  let magicLo := decodeFixed32 magic
  let magicHi := decodeFixed32 (magic.drop 4)
  if magicHi <<< 32 ||| magicLo ≠ kTableMagicNumber then .error .corruption
  else
    match BlockHandle.decodeFrom input with
    | none => .error .corruption
    | some (metaindexHandle, handles) =>
      match BlockHandle.decodeFrom handles with
      | none => .error .corruption
      | some (indexHandle, _) => .ok ({ metaindexHandle, indexHandle }, input.drop kEncodedLength)

/-- The offset and the size fit `uint64_t`. -/
def BlockHandle.Fits (h : BlockHandle) : Prop := h.offset < 2 ^ 64 ∧ h.size < 2 ^ 64

theorem BlockHandle.decodeFrom_encodeTo {h : BlockHandle} (hh : h.Fits) (rest : Bytes) :
    decodeFrom (h.encodeTo ++ rest) = some (h, rest) := by
  simp [decodeFrom, encodeTo, getVarint64_put hh.1, getVarint64_put hh.2]

theorem BlockHandle.length_encodeTo {h : BlockHandle} (hh : h.Fits) :
    h.encodeTo.length ≤ kMaxEncodedLength := by
  rw [encodeTo, List.length_append]
  exact Nat.add_le_add (length_putVarint64_le hh.1) (length_putVarint64_le hh.2)

theorem Footer.length_encodeTo (f : Footer) : f.encodeTo.length = kEncodedLength := by
  simp only [encodeTo, List.length_append, List.length_take, List.length_replicate,
    length_encodeFixed32, kEncodedLength]
  omega

/-- Two handles always fit the footer: `resize` cuts nothing. -/
theorem Footer.encodeTo_eq {f : Footer} (hmeta : f.metaindexHandle.Fits)
    (hindex : f.indexHandle.Fits) :
    ∃ pad, f.encodeTo = f.metaindexHandle.encodeTo ++ (f.indexHandle.encodeTo ++ pad) := by
  have hlen := Nat.add_le_add (BlockHandle.length_encodeTo hmeta) (BlockHandle.length_encodeTo hindex)
  rw [← List.length_append, ← Nat.two_mul] at hlen
  rw [encodeTo, List.take_append, List.take_of_length_le hlen]
  simp only [List.append_assoc]
  exact ⟨_, rfl⟩

theorem Footer.decodeFrom_encodeTo {f : Footer} (hmeta : f.metaindexHandle.Fits)
    (hindex : f.indexHandle.Fits) (rest : Bytes) :
    decodeFrom (f.encodeTo ++ rest) = .ok (f, rest) := by
  obtain ⟨pad, hpad⟩ := encodeTo_eq hmeta hindex
  have hmagic : (f.encodeTo ++ rest).drop (kEncodedLength - 8) =
      encodeFixed32 (kTableMagicNumber % 2 ^ 32) ++
        (encodeFixed32 ((kTableMagicNumber >>> 32) % 2 ^ 32) ++ rest) := by
    rw [encodeTo, List.append_assoc, List.append_assoc]
    refine List.drop_left' ?_
    simp only [List.length_take, List.length_append, List.length_replicate, kEncodedLength]
    omega
  have hrest : (f.encodeTo ++ rest).drop kEncodedLength = rest :=
    List.drop_left' (length_encodeTo f)
  have hlo : decodeFixed32 ((f.encodeTo ++ rest).drop (kEncodedLength - 8)) =
      kTableMagicNumber % 2 ^ 32 := by
    rw [hmagic]
    exact decodeFixed32_encode (by decide) _
  have hhi : decodeFixed32 (((f.encodeTo ++ rest).drop (kEncodedLength - 8)).drop 4) =
      (kTableMagicNumber >>> 32) % 2 ^ 32 := by
    rw [hmagic, List.drop_left' (length_encodeFixed32 _)]
    exact decodeFixed32_encode (by decide) _
  simp only [decodeFrom, hlo, hhi, hrest]
  rw [if_neg (by decide), hpad, List.append_assoc, BlockHandle.decodeFrom_encodeTo hmeta]
  dsimp only
  rw [List.append_assoc, BlockHandle.decodeFrom_encodeTo hindex]

/-! ## The blocks -/

/-- A call of `WriteRawBlock`: what it was given, and the handle that it set. -/
structure RawBlock where
  handle : BlockHandle
  contents : Bytes
  type : CompressionType
  deriving DecidableEq, Repr

namespace RawBlock
variable (E : TableEnv)

/-- The block with its type and its checksum, and where it begins. -/
def piece (r : RawBlock) : ℕ × Bytes :=
  (r.handle.offset, r.contents ++ Tablebuilder.blockBack E r.contents r.type)

/-- The handle delimits the contents in the file; behind them are the type and the checksum that
`ReadBlock` compares with that of the contents and the type. -/
structure StoredIn (r : RawBlock) (file : Bytes) : Prop where
  size : r.handle.size = r.contents.length
  contents : (file.drop r.handle.offset).take r.handle.size = r.contents
  type : (file.drop (r.handle.offset + r.handle.size)).head? = some (UInt8.ofNat r.type.code)
  crc : decodeFixed32 (file.drop (r.handle.offset + r.handle.size + 1)) =
    (E.crc.crc32c ((file.drop r.handle.offset).take (r.handle.size + 1))).toNat

end RawBlock

namespace Tablebuilder
variable {E : TableEnv} {b b' b'' : Tablebuilder StoredFile} {rs rs' : List RawBlock}

/-- What `WriteBlock` hands to `WriteRawBlock`. -/
def stored (E : TableEnv) (opt : Options) (block : Blockbuilder) : Bytes × CompressionType :=
  match opt.compression with
  | .noCompression => (block.finish, .noCompression)
  | .snappyCompression =>
    let compressed := E.compress block.finish
    if compressed.length ≠ 0 then (E.cleared compressed, .snappyCompression)
    else (block.finish, .noCompression)

theorem writeBlock_eq {F : Type} [AppendFile F] (b : Tablebuilder F) (block : Blockbuilder) :
    b.writeBlock E block =
      b.writeRawBlock E (stored E b.options block).1 (stored E b.options block).2 := by
  rw [writeBlock, stored]
  cases b.options.compression with
  | noCompression => rfl
  | snappyCompression =>
    dsimp only
    split <;> rfl

/-- The call of `WriteRawBlock` with these contents. -/
def rawBlock (E : TableEnv) (b : Tablebuilder StoredFile) (contents : Bytes) (type : CompressionType) :
    RawBlock := ⟨(b.writeRawBlock E contents type).1, contents, type⟩

/-- The call of `WriteRawBlock` in `WriteBlock`. -/
def writtenBlock (E : TableEnv) (b : Tablebuilder StoredFile) (block : Blockbuilder) : RawBlock :=
  b.rawBlock E (stored E b.options block).1 (stored E b.options block).2

/-- The call of `WriteRawBlock` in `Flush`, if there is one. -/
def flushBlocks (E : TableEnv) (b : Tablebuilder StoredFile) : List RawBlock :=
  if b.dataBlock.empty then [] else [b.writtenBlock E b.dataBlock]

/-- The calls of `WriteRawBlock` in a sequence of `Add`. -/
def addBlocks (E : TableEnv) (b : Tablebuilder StoredFile) : List (Bytes × Bytes) → List RawBlock
  | [] => []
  | e :: es =>
    let added := b.added e.1 e.2
    let now := if added.dataBlock.currentSizeEstimate ≥ added.options.blockSize
      then added.flushBlocks E else []
    now ++ (b.add E e.1 e.2).addBlocks E es

/-- The calls of `WriteRawBlock` for the filter, the metaindex and the index in `Finish`. -/
structure FinishBlocks where
  filter : RawBlock
  metaindex : RawBlock
  index : RawBlock

def finishBlocks (E : TableEnv) (b : Tablebuilder StoredFile) : FinishBlocks :=
  let b := { b.flush E with closed := true }
  let filter := b.rawBlock E (b.filterBlock.finish E.bloomfit E.hash) .noCompression
  let (filterHandle, b) := b.finishFilter E
  let metaindex := b.writtenBlock E
    (Blockbuilder.add b.options.blockRestartInterval {} filterKey filterHandle.encodeTo)
  let b := (b.finishMetaindex E filterHandle).2
  let b := b.addIndexEntry b.lastKey
  { filter, metaindex, index := b.writtenBlock E b.indexBlock }

/-- All calls of `WriteRawBlock` in a sequence of `Add` and a `Finish`, in order. -/
def rawBlocks (E : TableEnv) (b : Tablebuilder StoredFile) (es : List (Bytes × Bytes)) :
    List RawBlock :=
  let done := b.addAll E es
  let last := done.finishBlocks E
  b.addBlocks E es ++ done.flushBlocks E ++ [last.filter, last.metaindex, last.index]

/-- The builder `b'` is `b` after these calls of `WriteRawBlock`. -/
structure Writes (E : TableEnv) (b : Tablebuilder StoredFile) (rs : List RawBlock)
    (b' : Tablebuilder StoredFile) : Prop where
  bytes : b'.file.bytes = b.file.bytes ++ (rs.map (·.piece E)).flatMap (·.2)
  tiles : Tiles b.offset (rs.map (·.piece E)) b'.offset
  size : ∀ r ∈ rs, r.handle.size = r.contents.length

namespace Writes

/-- No call: the file and the offset are the same. -/
theorem none (hfile : b'.file = b.file) (hoffset : b'.offset = b.offset) : Writes E b [] b' where
  bytes := by rw [hfile, List.map_nil, List.flatMap_nil, List.append_nil]
  tiles := by
    rw [hoffset]
    exact .nil _
  size := List.forall_mem_nil _

theorem refl (b : Tablebuilder StoredFile) : Writes E b [] b := .none rfl rfl

theorem trans (h : Writes E b rs b') (h' : Writes E b' rs' b'') : Writes E b (rs ++ rs') b'' where
  bytes := by rw [h'.bytes, h.bytes, List.map_append, List.flatMap_append, List.append_assoc]
  tiles := by
    rw [List.map_append]
    exact h.tiles.append h'.tiles
  size r hr := (List.mem_append.mp hr).elim (h.size r) (h'.size r)

theorem congr (h : Writes E b rs b') (hfile : b''.file = b'.file) (hoffset : b''.offset = b'.offset) :
    Writes E b rs b'' := by
  have h' := h.trans (.none hfile hoffset)
  rwa [List.append_nil] at h'

theorem writeRawBlock (b : Tablebuilder StoredFile) (contents : Bytes) (type : CompressionType) :
    Writes E b [b.rawBlock E contents type] (b.writeRawBlock E contents type).2 where
  bytes := by simp [rawBlock, RawBlock.piece, List.append_assoc]
  tiles := by
    have h := Tiles.single b.offset (contents ++ blockBack E contents type)
    rwa [List.length_append, length_blockBack] at h
  size := by simp [rawBlock]

theorem writeBlock (b : Tablebuilder StoredFile) (block : Blockbuilder) :
    Writes E b [b.writtenBlock E block] (b.writeBlock E block).2 := by
  rw [writeBlock_eq]
  exact .writeRawBlock b _ _

theorem flush (b : Tablebuilder StoredFile) : Writes E b (b.flushBlocks E) (b.flush E) := by
  rw [flushBlocks, Tablebuilder.flush]
  split
  · exact .refl b
  · obtain ⟨hbytes, htiles, hsize⟩ := Writes.writeBlock (E := E) b b.dataBlock
    exact ⟨hbytes, htiles, hsize⟩

theorem addIndexEntry (b : Tablebuilder StoredFile) (key : Bytes) :
    Writes E b [] (b.addIndexEntry key) := by
  rw [Tablebuilder.addIndexEntry]
  split
  · exact .none rfl rfl
  · exact .refl b

theorem added (b : Tablebuilder StoredFile) (key val : Bytes) : Writes E b [] (b.added key val) :=
  .trans (.addIndexEntry b key) (.none rfl rfl)

theorem addAll (b : Tablebuilder StoredFile) (es : List (Bytes × Bytes)) :
    Writes E b (b.addBlocks E es) (b.addAll E es) := by
  induction es generalizing b with
  | nil => exact .refl b
  | cons e es ih =>
    rw [addBlocks, addAll_cons]
    refine .trans ?_ (ih _)
    rw [add_eq, flushIfFull]
    split
    · exact (Writes.added b e.1 e.2).trans (.flush _)
    · exact .added b e.1 e.2

/-- The offset keeps to the end of the file. -/
theorem tracks (h : Writes E b rs b') (hb : b.Tracks) : b'.Tracks := by
  have hstop := h.tiles.stop_eq
  rw [hb] at hstop
  rw [Tracks, hstop, h.bytes, List.length_append]

/-- The blocks are where their handles say, whatever is appended behind them. -/
theorem storedIn (h : Writes E b rs b') (hb : b.Tracks) {r : RawBlock} (hr : r ∈ rs) (rest : Bytes) :
    r.StoredIn E (b'.file.bytes ++ rest) := by
  have hslice := h.tiles.slice hb.symm rest (List.mem_map_of_mem hr)
  rw [← h.bytes] at hslice
  have hprefix : (r.piece E).2 <+: (b'.file.bytes ++ rest).drop r.handle.offset :=
    List.prefix_iff_eq_take.mpr hslice.symm
  obtain ⟨tail, htail⟩ := hprefix
  rw [RawBlock.piece, List.append_assoc, eq_comm] at htail
  have hsize := h.size r hr
  constructor
  · exact hsize
  · rw [htail, hsize, List.take_left]
  · rw [← List.drop_drop, htail, hsize, List.drop_left]
    rfl
  · rw [Nat.add_assoc, ← List.drop_drop, htail, hsize]
    exact decodeFixed32_blockBack _ _ _

end Writes

theorem Tracks.addAll (hb : b.Tracks) (es : List (Bytes × Bytes)) : (b.addAll E es).Tracks :=
  (Writes.addAll b es).tracks hb

/-! ## `Finish` -/

/-- `Finish`, up to the footer. -/
theorem exists_finish (hb : b.state = .ok) :
    ∃ done, Writes E b (b.flushBlocks E ++ [(b.finishBlocks E).filter, (b.finishBlocks E).metaindex,
      (b.finishBlocks E).index]) done ∧ done.state = .ok ∧
      b.finish E = done.finishFooter
        ⟨(b.finishBlocks E).metaindex.handle, (b.finishBlocks E).index.handle⟩ := by
  let b₀ := { b.flush E with closed := true }
  have hb₀ : b₀.state = .ok := state_flush hb
  have hfilter : b₀.finishFilter E =
      b₀.writeRawBlock E (b₀.filterBlock.finish E.bloomfit E.hash) .noCompression := if_pos hb₀
  let b₁ := (b₀.finishFilter E).2
  have hb₁ : b₁.state = .ok := state_finishFilter hb₀
  let metaindex := Blockbuilder.add b₁.options.blockRestartInterval {} filterKey
    (b₀.finishFilter E).1.encodeTo
  have hmetaindex : b₁.finishMetaindex E (b₀.finishFilter E).1 = b₁.writeBlock E metaindex :=
    if_pos hb₁
  let b₂ := (b₁.finishMetaindex E (b₀.finishFilter E).1).2
  have hb₂ : b₂.state = .ok := state_finishMetaindex hb₁ _
  let b₃ := b₂.addIndexEntry b₂.lastKey
  let done := { (b₃.writeBlock E b₃.indexBlock).2 with indexBlock := .reset }
  have hindex : b₂.finishIndex E = ((b₃.writeBlock E b₃.indexBlock).1, done) := if_pos hb₂
  have hw₀ : Writes E b (b.flushBlocks E) b₀ := (Writes.flush b).congr rfl rfl
  have hw₁ : Writes E b₀ [(b.finishBlocks E).filter] b₁ := by
    have h := Writes.writeRawBlock (E := E) b₀ (b₀.filterBlock.finish E.bloomfit E.hash) .noCompression
    rwa [← hfilter] at h
  have hw₂ : Writes E b₁ [(b.finishBlocks E).metaindex] b₂ := by
    have h := Writes.writeBlock (E := E) b₁ metaindex
    rwa [← hmetaindex] at h
  have hw₃ : Writes E b₂ [(b.finishBlocks E).index] done :=
    (Writes.addIndexEntry b₂ _).trans ((Writes.writeBlock b₃ b₃.indexBlock).congr rfl rfl)
  refine ⟨done, hw₀.trans (hw₁.trans (hw₂.trans hw₃)), state_writeBlock _, ?_⟩
  have hhandle : (b.finishBlocks E).metaindex.handle = (b₁.finishMetaindex E (b₀.finishFilter E).1).1 := by
    rw [hmetaindex, writeBlock_eq]
    rfl
  have hhandle' : (b.finishBlocks E).index.handle = (b₂.finishIndex E).1 := by
    rw [hindex, writeBlock_eq]
    rfl
  have hdone : done = (b₂.finishIndex E).2 := by rw [hindex]
  rw [hhandle, hhandle', hdone]
  rfl

/-- The builder's file consists of these blocks, one behind the other, and the footer. -/
structure Layout (E : TableEnv) (b : Tablebuilder StoredFile) (rs : List RawBlock) (footer : Footer) :
    Prop where
  size : b.offset = b.file.bytes.length
  storedIn : ∀ r ∈ rs, r.StoredIn E b.file.bytes
  tiles : Tiles 0 (rs.map (·.piece E)) (b.file.bytes.length - Footer.kEncodedLength)
  footer : b.file.bytes.drop (b.file.bytes.length - Footer.kEncodedLength) = footer.encodeTo

theorem Writes.layout (h : Writes E b rs b') (hempty : b.file.bytes = []) (hb : b.Tracks)
    (hstate : b'.state = .ok) (footer : Footer) : Layout E (b'.finishFooter footer) rs footer := by
  have hbytes : (b'.finishFooter footer).file.bytes = b'.file.bytes ++ footer.encodeTo := by
    rw [finishFooter, if_pos hstate]
    rfl
  have hoffset : (b'.finishFooter footer).offset = b'.offset + footer.encodeTo.length := by
    rw [finishFooter, if_pos hstate]
    rfl
  have hstart : b.offset = 0 := by rw [hb, hempty, List.length_nil]
  have htracks : b'.offset = b'.file.bytes.length := h.tracks hb
  have hlength : (b'.file.bytes ++ footer.encodeTo).length - Footer.kEncodedLength =
      b'.file.bytes.length := by
    rw [List.length_append, Footer.length_encodeTo, Nat.add_sub_cancel]
  constructor
  · rw [hoffset, hbytes, htracks, List.length_append]
  · rw [hbytes]
    exact fun r hr => h.storedIn hb hr _
  · rw [hbytes, hlength, ← htracks, ← hstart]
    exact h.tiles
  · rw [hbytes, hlength, List.drop_left]

theorem Layout.pairwise {footer : Footer} (h : Layout E b rs footer) :
    rs.Pairwise fun r r' => r.handle.offset + (r.handle.size + kBlockBackSize) ≤ r'.handle.offset := by
  refine (List.pairwise_map.mp h.tiles.pairwise).imp_of_mem fun {r r'} hr _ hle => ?_
  rwa [RawBlock.piece, List.length_append, length_blockBack, ← (h.storedIn r hr).size] at hle

/-- The blocks lie in the file, so their handles fit where its length does. -/
theorem Layout.fits {footer : Footer} (h : Layout E b rs footer)
    (hlength : b.file.bytes.length < 2 ^ 64) {r : RawBlock} (hr : r ∈ rs) : r.handle.Fits := by
  have hle := h.tiles.le_stop (List.mem_map_of_mem hr)
  rw [RawBlock.piece, List.length_append, ← (h.storedIn r hr).size] at hle
  constructor
  · omega
  · omega

/-- A run of `Add` and `Finish` lays its blocks out one behind the other, and the footer that gives
back their handles behind them; the size is that of the file all along. -/
theorem finish_layout (E : TableEnv) (opt : Options) (es : List (Bytes × Bytes)) :
    let b := new opt (StoredFile.mk [])
    let rs := b.rawBlocks E es
    let done := (b.addAll E es).finish E
    (∀ pre, pre <+: es → (b.addAll E pre).offset = (b.addAll E pre).file.bytes.length) ∧
      (∃ blocks metaindex index, rs = blocks ++ [metaindex, index] ∧
        Layout E done rs ⟨metaindex.handle, index.handle⟩ ∧
        (done.file.bytes.length < 2 ^ 64 → Footer.decodeFrom
          (done.file.bytes.drop (done.file.bytes.length - Footer.kEncodedLength)) =
            .ok (⟨metaindex.handle, index.handle⟩, []))) ∧
      rs.Pairwise (fun r r' =>
        r.handle.offset + (r.handle.size + kBlockBackSize) ≤ r'.handle.offset) ∧
      ∀ (f : Footer) (rest : Bytes), f.metaindexHandle.Fits → f.indexHandle.Fits →
        Footer.decodeFrom (f.encodeTo ++ rest) = .ok (f, rest) := by
  intro b rs done
  obtain ⟨b', hfinish, hstate, heq⟩ :=
    exists_finish (E := E) (b := b.addAll E es) (state_addAll rfl es)
  have hwrites : Writes E b rs b' := by
    have h := (Writes.addAll b es).trans hfinish
    rwa [← List.append_assoc] at h
  let last := (b.addAll E es).finishBlocks E
  have hsplit : rs = (b.addBlocks E es ++ (b.addAll E es).flushBlocks E ++ [last.filter]) ++
      [last.metaindex, last.index] := (List.append_assoc _ [_] [_, _]).symm
  have hlayout : Layout E done rs ⟨last.metaindex.handle, last.index.handle⟩ := by
    have h := hwrites.layout rfl tracks_new hstate ⟨last.metaindex.handle, last.index.handle⟩
    rwa [← heq] at h
  refine ⟨fun pre _ => Tracks.addAll tracks_new pre,
    ⟨_, last.metaindex, last.index, hsplit, hlayout, fun hlength => ?_⟩, hlayout.pairwise,
    fun f rest hmeta hindex => Footer.decodeFrom_encodeTo hmeta hindex rest⟩
  have hmeta : last.metaindex.handle.Fits := hlayout.fits hlength (by simp [hsplit])
  have hindex : last.index.handle.Fits := hlayout.fits hlength (by simp [hsplit])
  have hdecode := @Footer.decodeFrom_encodeTo ⟨_, _⟩ hmeta hindex []
  rwa [List.append_nil, ← hlayout.footer] at hdecode

end Tablebuilder
end Yubindb
