import Yubindb.Db.TableCache

/-!
# Opening the tables that the builder makes

`Table::Open` reads the index block first. `Tablebuilder` never puts an entry into it, so that the same
bytes are stored for the index of every table.
-/

namespace Yubindb
variable {E : TableEnv}

/-! ## Reading a stored block -/

/-- Whether `ReadBlock` refuses a block with these contents; otherwise it runs off its end. -/
def RawBlock.Refused (E : TableEnv) (contents : Bytes) (type : CompressionType) : Prop :=
  type = .snappyCompression ∧
    (E.getUncompressedLength contents ≠ none ∨ E.uncompress contents = none)

instance (contents : Bytes) (type : CompressionType) : Decidable (RawBlock.Refused E contents type) :=
  inferInstanceAs (Decidable (_ ∧ _))

theorem readBlock_content {content contents : Bytes} {n : ℕ} {type : CompressionType}
    (hlen : content.length = n + kBlockBackSize)
    (hcrc : decodeFixed32 (content.drop (n + 1)) = (E.crc.crc32c (content.take (n + 1))).toNat)
    (hcontents : content.take n = contents) (htype : content.getD n 0 = UInt8.ofNat type.code) :
    (readBlock E content { size := n }).1 =
      if RawBlock.Refused E contents type then some .corruption else none := by
  have hwhole : (content.drop 0).take (n + kBlockBackSize) = content := by
    rw [List.drop_zero, ← hlen, List.take_length]
  rw [readBlock]
  simp only [hwhole]
  rw [if_neg (not_not.mpr hlen), if_neg (not_not.mpr hcrc), htype, hcontents]
  cases type with
  | noCompression => rfl
  | snappyCompression =>
    rw [if_neg (by decide), if_pos (by decide)]
    simp only [RawBlock.Refused, true_and]
    cases E.getUncompressedLength contents <;> cases E.uncompress contents <;> rfl

/-- `ReadBlock`, of the bytes that a handle delimits in the file. -/
theorem readBlock_take_drop {r : RawBlock} {file : Bytes} (h : r.StoredIn E file)
    (hfile : r.handle.offset + (r.handle.size + kBlockBackSize) ≤ file.length) :
    (readBlock E ((file.drop r.handle.offset).take (r.handle.size + kBlockBackSize))
      { size := r.handle.size }).1 =
        if RawBlock.Refused E r.contents r.type then some .corruption else none := by
  have hlen : ((file.drop r.handle.offset).take (r.handle.size + kBlockBackSize)).length =
      r.handle.size + kBlockBackSize := by
    rw [List.length_take, List.length_drop]
    omega
  have hcrc : decodeFixed32 (((file.drop r.handle.offset).take
      (r.handle.size + kBlockBackSize)).drop (r.handle.size + 1)) =
        (E.crc.crc32c (((file.drop r.handle.offset).take
          (r.handle.size + kBlockBackSize)).take (r.handle.size + 1))).toNat := by
    have hbehind : ((file.drop r.handle.offset).take (r.handle.size + kBlockBackSize)).drop
        (r.handle.size + 1) = (file.drop (r.handle.offset + r.handle.size + 1)).take 4 := by
      rw [List.drop_take, List.drop_drop]
      congr 1
      rw [kBlockBackSize]
      omega
    rw [hbehind, decodeFixed32, List.take_take, Nat.min_self, ← decodeFixed32, h.crc, List.take_take]
    congr 3
    rw [kBlockBackSize]
    omega
  have hcontents : ((file.drop r.handle.offset).take (r.handle.size + kBlockBackSize)).take
      r.handle.size = r.contents := by
    rw [List.take_take, Nat.min_eq_left (Nat.le_add_right _ _), h.contents]
  have htype : ((file.drop r.handle.offset).take (r.handle.size + kBlockBackSize)).getD
      r.handle.size 0 = UInt8.ofNat r.type.code := by
    rw [List.getD_eq_getElem?_getD, List.getElem?_take, if_pos (by rw [kBlockBackSize]; omega),
      List.getElem?_drop, ← List.head?_drop, h.type]
    rfl
  exact readBlock_content hlen hcrc hcontents htype

theorem TableIo.read_ofDisk {file : Bytes} {disk : FileName → Option Bytes} {name : FileName}
    (hdisk : disk name = some file) (offset n : ℕ) :
    (TableIo.ofDisk disk).read name offset n = (.ok, (file.drop offset).take n) := by
  simp [TableIo.read, TableIo.ofDisk, hdisk]

theorem TableIo.readBlock_of_storedIn {r : RawBlock} {file : Bytes} {disk : FileName → Option Bytes}
    {name : FileName} (hdisk : disk name = some file) (h : r.StoredIn E file)
    (hfile : r.handle.offset + (r.handle.size + kBlockBackSize) ≤ file.length)
    (hsize : file.length < 2 ^ 64) :
    ((TableIo.ofDisk disk).readBlock E name r.handle).map Prod.fst =
      if RawBlock.Refused E r.contents r.type then some .corruption else none := by
  have hfits : (r.handle.size + kBlockBackSize) % 2 ^ 64 = r.handle.size + kBlockBackSize :=
    Nat.mod_eq_of_lt (by omega)
  have hread : (TableIo.ofDisk disk).read name r.handle.offset (r.handle.size + kBlockBackSize) =
      (.ok, (file.drop r.handle.offset).take (r.handle.size + kBlockBackSize)) := read_ofDisk hdisk _ _
  have hlen : ((file.drop r.handle.offset).take (r.handle.size + kBlockBackSize)).length =
      r.handle.size + kBlockBackSize := by
    rw [List.length_take, List.length_drop]
    omega
  rw [TableIo.readBlock]
  simp only [hfits, hread]
  rw [if_neg (by simp [hlen]), if_pos (by omega), Option.map_map]
  rw [← readBlock_take_drop h hfile]
  exact Option.map_id_apply

/-! ## The index that the builder stores -/

namespace Tablebuilder
variable {F : Type} [AppendFile F]

theorem options_finishFilter (b : Tablebuilder F) : (b.finishFilter E).2.options = b.options := by
  rw [finishFilter]
  split
  · obtain ⟨_, _, _, -, hframe⟩ := @writeRawBlock_frame F _ E b
      (b.filterBlock.finish E.bloomfit E.hash) .noCompression
    rw [hframe]
  · rfl

theorem options_finishMetaindex (b : Tablebuilder F) (handle : BlockHandle) :
    (b.finishMetaindex E handle).2.options = b.options := by
  rw [finishMetaindex]
  split
  · obtain ⟨_, _, _, _, -, hframe⟩ := @writeBlock_frame F _ E b
      (Blockbuilder.add b.options.blockRestartInterval {} filterKey handle.encodeTo)
    rw [hframe]
  · rfl

theorem options_add (b : Tablebuilder F) (key val : Bytes) :
    (b.add E key val).options = b.options := by
  rcases add_cases E b key val with ⟨h, -⟩ | ⟨h, -⟩
  · rw [h, options_added]
  · rw [h, options_flush, options_added]

theorem options_addAll (b : Tablebuilder F) (es : List (Bytes × Bytes)) :
    (b.addAll E es).options = b.options := by
  induction es generalizing b with
  | nil => rfl
  | cons e es ih => exact (ih _).trans (options_add b e.1 e.2)

/-- The index block of every table is the one without entries. -/
theorem index_finishBlocks {b : Tablebuilder StoredFile} (hb : b.Unindexed) :
    ((b.finishBlocks E).index.contents, (b.finishBlocks E).index.type) = stored E b.options {} := by
  have hclosed : ({ b.flush E with closed := true } : Tablebuilder StoredFile).Unindexed := hb.flush
  have hfilter := @Unindexed.finishFilter StoredFile _ E _ hclosed
  have hmetaindex (handle : BlockHandle) := @Unindexed.finishMetaindex StoredFile _ E _ hfilter handle
  rw [finishBlocks]
  dsimp only
  rw [(hmetaindex _).addIndexEntry, writtenBlock, rawBlock, (hmetaindex _).2, options_finishMetaindex,
    options_finishFilter]
  exact congrArg (stored E · {}) options_flush

end Tablebuilder

/-! ## Opening a table -/

/-- `Table::Open` fails in the index block. -/
theorem SSTable.open_of_layout {b : Tablebuilder StoredFile} {rs : List RawBlock}
    {metaindex index : RawBlock} {disk : FileName → Option Bytes} {name : FileName}
    (h : Tablebuilder.Layout E b (rs ++ [metaindex, index]) ⟨metaindex.handle, index.handle⟩)
    (hsize : b.file.bytes.length < 2 ^ 64) (hdisk : disk name = some b.file.bytes) :
    (SSTable.open E (.ofDisk disk) name b.offset).bind (fun r => if r.1 ≠ .ok then some r.1 else none) =
      if RawBlock.Refused E index.contents index.type then some .corruption else none := by
  have hindex : index ∈ rs ++ [metaindex, index] := by simp
  have hmeta : metaindex ∈ rs ++ [metaindex, index] := by simp
  have hfooter : (b.file.bytes.drop (b.file.bytes.length - Footer.kEncodedLength)).length =
      Footer.kEncodedLength := by
    rw [h.footer, Footer.length_encodeTo]
  have hlong : ¬ b.offset < Footer.kEncodedLength := by
    rw [List.length_drop] at hfooter
    rw [h.size]
    omega
  have hinput : (b.file.bytes.drop (b.offset - Footer.kEncodedLength)).take Footer.kEncodedLength =
      Footer.encodeTo ⟨metaindex.handle, index.handle⟩ := by
    rw [h.size, List.take_of_length_le hfooter.le, h.footer]
  have hdecode := @Footer.decodeFrom_encodeTo ⟨metaindex.handle, index.handle⟩ (h.fits hsize hmeta)
    (h.fits hsize hindex) []
  rw [List.append_nil] at hdecode
  have hstop := h.tiles.le_stop (List.mem_map_of_mem hindex)
  rw [RawBlock.piece, List.length_append, Tablebuilder.length_blockBack,
    ← (h.storedIn index hindex).size] at hstop
  have hblock := TableIo.readBlock_of_storedIn hdisk (h.storedIn index hindex)
    (hstop.trans (Nat.sub_le _ _)) hsize
  rw [SSTable.open, if_neg hlong, TableIo.read_ofDisk hdisk, hinput]
  dsimp only
  rw [if_neg (not_not.mpr rfl), Footer.length_encodeTo, if_neg (Nat.lt_irrefl _), hdecode]
  by_cases hrefused : RawBlock.Refused E index.contents index.type
  · rw [if_pos hrefused] at hblock ⊢
    obtain ⟨⟨s, result⟩, hread, rfl⟩ := Option.map_eq_some_iff.mp hblock
    simp only [hread]
    rfl
  · rw [if_neg hrefused, Option.map_eq_none_iff] at hblock
    rw [if_neg hrefused]
    simp only [hblock]
    rfl

/-- The layout that `Finish` leaves, with the index block that every table has. -/
theorem Tablebuilder.exists_layout (opt : Options) (es : List (Bytes × Bytes)) :
    ∃ rs metaindex index, Layout E (((new opt (StoredFile.mk [])).addAll E es).finish E)
        (rs ++ [metaindex, index]) ⟨metaindex.handle, index.handle⟩ ∧
      (index.contents, index.type) = stored E opt.copy {} := by
  let b := (new opt (StoredFile.mk [])).addAll E es
  let last := b.finishBlocks E
  obtain ⟨b', hfinish, hstate, heq⟩ := exists_finish (E := E) (b := b) (state_addAll rfl es)
  have hwrites := (Writes.addAll (E := E) (new opt (StoredFile.mk [])) es).trans hfinish
  have hlayout := hwrites.layout rfl tracks_new hstate ⟨last.metaindex.handle, last.index.handle⟩
  have hsplit : (new opt (StoredFile.mk [])).addBlocks E es ++
      (b.flushBlocks E ++ [last.filter, last.metaindex, last.index]) =
        ((new opt (StoredFile.mk [])).addBlocks E es ++ b.flushBlocks E ++ [last.filter]) ++
          [last.metaindex, last.index] := by simp
  rw [← heq, hsplit] at hlayout
  refine ⟨_, last.metaindex, last.index, hlayout, ?_⟩
  rw [index_finishBlocks ((unindexed_new opt _).addAll es), options_addAll]
  rfl

/-- Whether the stored index block is refused: its contents are those of a string that has just been
cleared. -/
def TableEnv.RefusesIndex (E : TableEnv) : Prop :=
  let compressed := E.compress (({} : Blockbuilder).finish)
  compressed.length ≠ 0 ∧ (E.getUncompressedLength (E.cleared compressed) ≠ none ∨
    E.uncompress (E.cleared compressed) = none)

instance : Decidable E.RefusesIndex := inferInstanceAs (Decidable (_ ∧ _))

theorem refused_index (opt : Options) :
    RawBlock.Refused E (Tablebuilder.stored E opt.copy {}).1 (Tablebuilder.stored E opt.copy {}).2 ↔
      E.RefusesIndex := by
  rw [TableEnv.RefusesIndex, Tablebuilder.stored]
  dsimp only [Options.copy]
  split
  · next hne => simp [RawBlock.Refused, hne]
  · next heq => simp [RawBlock.Refused, heq]

namespace TableCache
variable {hash : Bytes → ℕ} {maxOpenFiles : ℤ} {tc : TableCache} {opt : Options}
  {es : List (Bytes × Bytes)} {disk : FileName → Option Bytes} {num : ℕ}

/-- Whatever has been called before, and whatever the key: a table that the builder has made, read with
the size that it has reported, is corrupt where the index block is refused, and nothing is defined
where it is not. -/
theorem get_built (hrun : Steps (step E) (fun _ _ => True) (new hash maxOpenFiles) tc)
    (hdisk : disk (tableFileName num) =
      some (((Tablebuilder.new opt (StoredFile.mk [])).addAll E es).finish E).file.bytes)
    (hsize : (((Tablebuilder.new opt (StoredFile.mk [])).addAll E es).finish E).offset < 2 ^ 64)
    (key : Bytes) :
    tc.get E (.ofDisk disk) num
        (((Tablebuilder.new opt (StoredFile.mk [])).addAll E es).finish E).offset key =
      if E.RefusesIndex then some (.corruption, none, tc) else none := by
  obtain rfl := eq_new hrun
  obtain ⟨rs, metaindex, index, hlayout, hindex⟩ := Tablebuilder.exists_layout (E := E) opt es
  have hopen := SSTable.open_of_layout hlayout (hlayout.size ▸ hsize) hdisk
  have hrefused := refused_index (E := E) opt
  rw [← hindex] at hrefused
  have hfile : openFile (.ofDisk disk) num = some (.ok, tableFileName num) := by
    simp [openFile, TableIo.newRandomAccessFile, TableIo.ofDisk, hdisk]
  have herror : findError E (.ofDisk disk) num
      (((Tablebuilder.new opt (StoredFile.mk [])).addAll E es).finish E).offset =
        if E.RefusesIndex then some .corruption else none := by
    rw [findError, if_neg (by rintro ⟨⟨⟩, -⟩), hfile, Option.bind_some, if_neg (not_not.mpr rfl), hopen]
    by_cases hindex : E.RefusesIndex
    · rw [if_pos (hrefused.mpr hindex), if_pos hindex]
    · rw [if_neg (hrefused.not.mpr hindex), if_neg hindex]
  rw [get_new, herror, apply_ite (Option.map _), Option.map_some, Option.map_none]

/-- A table of one entry. -/
def oneEntry : Tablebuilder StoredFile :=
  (((Tablebuilder.new {} (StoredFile.mk [])).addAll .sample
    [((InternalKey.new [107] 1 .value).Key, [118])]).finish .sample)

/-- A disk with this table. -/
def oneEntryDisk (name : FileName) : Option Bytes :=
  if name = tableFileName 5 then some oneEntry.file.bytes else none

theorem get_built_oneEntry :
    (new (fun _ => 0) 1000).get .sample (.ofDisk oneEntryDisk) 5 oneEntry.offset
      (InternalKey.new [107] 1 .value).Key = some (.corruption, none, new (fun _ => 0) 1000) := by
  have hrun : Steps (step .sample) (fun _ _ => True) (new (fun _ => 0) 1000) (new (fun _ => 0) 1000) :=
    .head (l := (.evict 5, .ofDisk oneEntryDisk)) trivial evict_new (.refl _)
  have hdisk : oneEntryDisk (tableFileName 5) = some oneEntry.file.bytes := if_pos rfl
  have hsize : oneEntry.offset < 2 ^ 64 := by decide +kernel
  have hrefused : TableEnv.sample.RefusesIndex := by decide +kernel
  have h := get_built hrun hdisk hsize (InternalKey.new [107] 1 .value).Key
  rwa [if_pos hrefused] at h

end TableCache
end Yubindb
