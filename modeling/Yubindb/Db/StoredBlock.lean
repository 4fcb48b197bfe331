import Yubindb.Db.Tablebuilder

/-!
# Stored blocks

What `ReadBlock` makes of a block that `WriteBlock` has written to a file that keeps what it is given.
-/

namespace Yubindb

/-- A file whose operations succeed and which stores the bytes that are appended. -/
structure StoredFile where
  bytes : Bytes
  deriving DecidableEq, Repr

instance : AppendFile StoredFile where
  append f ptr := (.ok, ⟨f.bytes ++ ptr⟩)
  flush f := (.ok, f)
  sync f := (.ok, f)

namespace Tablebuilder
variable {E : TableEnv} {b : Tablebuilder StoredFile}

/-- The builder counts the bytes of its file. -/
def Tracks (b : Tablebuilder StoredFile) : Prop := b.offset = b.file.bytes.length

theorem tracks_new {opt : Options} : (new opt (StoredFile.mk [])).Tracks := rfl

theorem length_blockBack (contents : Bytes) (type : CompressionType) :
    (blockBack E contents type).length = kBlockBackSize := by
  rw [blockBack, List.length_cons, length_encodeFixed32]
  rfl

@[simp] theorem writeRawBlock_fst (contents : Bytes) (type : CompressionType) :
    (b.writeRawBlock E contents type).1 = ⟨b.offset, contents.length⟩ := rfl

@[simp] theorem bytes_writeRawBlock (contents : Bytes) (type : CompressionType) :
    (b.writeRawBlock E contents type).2.file.bytes =
      b.file.bytes ++ contents ++ blockBack E contents type := rfl

/-! ### The state -/

theorem state_writeRawBlock (contents : Bytes) (type : CompressionType) :
    (b.writeRawBlock E contents type).2.state = .ok := rfl

theorem state_writeBlock (block : Blockbuilder) : (b.writeBlock E block).2.state = .ok := by
  rcases b.writeBlock_cases block with ⟨_, h⟩ | h
  · rw [h, state_writeRawBlock]
  · rw [h, state_writeRawBlock]

theorem state_flush (hb : b.state = .ok) : (b.flush E).state = .ok := by
  rw [Tablebuilder.flush]
  split
  · exact hb
  · exact state_writeBlock b.dataBlock

theorem state_addIndexEntry (key : Bytes) : (b.addIndexEntry key).state = b.state := by
  rw [Tablebuilder.addIndexEntry]
  split <;> rfl

theorem state_add (hb : b.state = .ok) (key val : Bytes) : (b.add E key val).state = .ok := by
  have hentry : (b.addIndexEntry key).state = .ok := (state_addIndexEntry key).trans hb
  rw [Tablebuilder.add]
  dsimp only
  split
  · exact state_flush hentry
  · exact hentry

theorem state_addAll (hb : b.state = .ok) (es : List (Bytes × Bytes)) :
    (b.addAll E es).state = .ok := by
  induction es generalizing b with
  | nil => exact hb
  | cons e es ih => exact ih (state_add hb e.1 e.2)

theorem state_finishFilter (hb : b.state = .ok) : (b.finishFilter E).2.state = .ok := by
  rw [finishFilter, if_pos hb]
  rfl

theorem state_finishMetaindex (hb : b.state = .ok) (filterHandle : BlockHandle) :
    (b.finishMetaindex E filterHandle).2.state = .ok := by
  rw [finishMetaindex, if_pos hb]
  exact state_writeBlock _

theorem state_finishIndex (hb : b.state = .ok) : (b.finishIndex E).2.state = .ok := by
  rw [finishIndex, if_pos hb]
  exact state_writeBlock _

theorem state_finishFooter (hb : b.state = .ok) (footer : Footer) :
    (b.finishFooter footer).state = .ok := by
  rw [finishFooter, if_pos hb]
  rfl

/-- On a file whose operations succeed, so does `Finish`. -/
theorem state_finish (hb : b.state = .ok) : (b.finish E).state = .ok := by
  have hflush : ({ b.flush E with closed := true } : Tablebuilder StoredFile).state = .ok :=
    state_flush hb
  exact state_finishFooter
    (state_finishIndex (state_finishMetaindex (state_finishFilter hflush) _)) _

/-! ### Reading back -/

/-- The checksum behind a block is that of the contents and the type. -/
theorem decodeFixed32_blockBack (contents rest : Bytes) (type : CompressionType) :
    decodeFixed32 ((contents ++ (blockBack E contents type ++ rest)).drop (contents.length + 1)) =
      (E.crc.crc32c
        ((contents ++ (blockBack E contents type ++ rest)).take (contents.length + 1))).toNat := by
  have hdrop : (contents ++ (blockBack E contents type ++ rest)).drop (contents.length + 1) =
      encodeFixed32 (E.crc.crc32c (contents ++ [UInt8.ofNat type.code])).toNat ++ rest := by
    rw [List.drop_append, List.drop_of_length_le (Nat.le_succ _), Nat.add_sub_cancel_left, blockBack,
      E.crc.extend_crc32c]
    rfl
  have htake : (contents ++ (blockBack E contents type ++ rest)).take (contents.length + 1) =
      contents ++ [UInt8.ofNat type.code] := by
    rw [List.take_append, List.take_of_length_le (Nat.le_succ _), Nat.add_sub_cancel_left, blockBack]
    rfl
  rw [hdrop, htake]
  exact decodeFixed32_encode (UInt32.toNat_lt _) rest

/-- What reading back a raw block comes to, whatever is appended behind it. -/
theorem readBlock_writeRawBlock (hb : b.Tracks) (contents rest : Bytes) (type : CompressionType) :
    readBlock E ((b.writeRawBlock E contents type).2.file.bytes ++ rest)
        (b.writeRawBlock E contents type).1 =
      match type with
      | .noCompression => (none, contents ++ blockBack E contents type)
      | .snappyCompression =>
        if E.getUncompressedLength contents = none ∧ E.uncompress contents ≠ none then (none, [])
        else (some .corruption, []) := by
  have hcontent : ((b.file.bytes ++ contents ++ blockBack E contents type ++ rest).drop b.offset).take
      (contents.length + kBlockBackSize) = contents ++ blockBack E contents type := by
    rw [hb, List.append_assoc, List.append_assoc, List.drop_left, ← List.append_assoc]
    exact List.take_left' (by rw [List.length_append, length_blockBack])
  have hcrc : decodeFixed32 ((contents ++ blockBack E contents type).drop (contents.length + 1)) =
      (E.crc.crc32c ((contents ++ blockBack E contents type).take (contents.length + 1))).toNat := by
    have h := decodeFixed32_blockBack (E := E) contents [] type
    rwa [List.append_nil] at h
  have htype : ((contents ++ blockBack E contents type).getD contents.length 0).toNat = type.code := by
    rw [List.getD_append_right _ _ _ _ (Nat.le_refl _), Nat.sub_self]
    cases type <;> rfl
  have hn : (contents ++ blockBack E contents type).take contents.length = contents := List.take_left
  simp only [readBlock, writeRawBlock_fst, bytes_writeRawBlock, hcontent, htype, hn]
  rw [if_neg (by simp [length_blockBack]), if_neg (by simpa using hcrc)]
  cases type with
  | noCompression => rfl
  | snappyCompression =>
    dsimp only
    cases E.getUncompressedLength contents <;> cases E.uncompress contents <;> rfl

/-- Reading back a block that was not compressed gives its type and checksum as well, and no status. -/
theorem readBlock_of_noCompression (hb : b.Tracks) {block : Blockbuilder} (rest : Bytes)
    (h : b.writeBlock E block = b.writeRawBlock E block.finish .noCompression) :
    readBlock E ((b.writeBlock E block).2.file.bytes ++ rest) (b.writeBlock E block).1 =
      (none, block.finish ++ blockBack E block.finish .noCompression) := by
  rw [h]
  exact readBlock_writeRawBlock hb _ _ _

theorem finish_ne_nil (block : Blockbuilder) : block.finish ≠ [] := by
  intro h
  have := congrArg List.length h
  rw [Blockbuilder.finish, List.length_append, length_encodeFixed32] at this
  cases this

/-- No block is read back: neither the status is `Ok` nor the result the contents. -/
theorem not_readBlock_writeBlock (hb : b.Tracks) (block : Blockbuilder) :
    (readBlock E (b.writeBlock E block).2.file.bytes (b.writeBlock E block).1).1 ≠ some .ok ∧
      (readBlock E (b.writeBlock E block).2.file.bytes (b.writeBlock E block).1).2 ≠ block.finish := by
  rw [← List.append_nil (b.writeBlock E block).2.file.bytes]
  rcases b.writeBlock_cases block with ⟨_, h⟩ | h
  · rw [h, readBlock_writeRawBlock hb]
    dsimp only
    split
    · exact ⟨nofun, (finish_ne_nil block).symm⟩
    · exact ⟨nofun, (finish_ne_nil block).symm⟩
  · rw [readBlock_of_noCompression hb [] h]
    refine ⟨nofun, ?_⟩
    intro heq
    have := congrArg List.length heq
    rw [List.length_append, length_blockBack] at this
    exact absurd this (Nat.ne_of_gt (Nat.lt_add_of_pos_right (by decide)))

/-- The block without entries, as the first block of a file. -/
theorem not_readBlock_writeBlock_empty :
    ¬ readBlock .sample (writeBlock .sample (.new {} (StoredFile.mk [])) {}).2.file.bytes
      (writeBlock .sample (.new {} (StoredFile.mk [])) {}).1 = (some .ok, Blockbuilder.finish {}) := by
  decide +kernel

/-- The block of one entry. -/
theorem not_readBlock_writeBlock_new :
    let block := Blockbuilder.add 16 {} [107] [118]
    (readBlock .sample (writeBlock .sample (.new {} (StoredFile.mk [])) block).2.file.bytes
        (writeBlock .sample (.new {} (StoredFile.mk [])) block).1).1 ≠ some .ok ∧
      (readBlock .sample (writeBlock .sample (.new {} (StoredFile.mk [])) block).2.file.bytes
        (writeBlock .sample (.new {} (StoredFile.mk [])) block).1).2 ≠ block.finish :=
  not_readBlock_writeBlock tracks_new _

end Tablebuilder
end Yubindb
