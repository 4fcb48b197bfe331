import Yubindb.Db.TableIndex

/-!
# The filter of a table

`src/db/sstable.cpp`: the test that `InternalGet` makes before it reads a block. The keys of a data block
are in the group of its offset, each with its own sequence number and type; a lookup asks for its key
with the sequence number of the snapshot.
-/

namespace Yubindb

/-- The condition `// Not found` in `Table::InternalGet`. -/
def Table.notFound (filter : Option FilterBlockReader) (hash : Bytes → UInt32)
    (handleValue k : Bytes) : Bool :=
  match filter, BlockHandle.decodeFrom handleValue with
  | some filter, some (handle, _) => !filter.keyMayMatch hash handle.offset k
  | _, _ => false

def TableEnv.withHash (E : TableEnv) (hash : Bytes → UInt32) : TableEnv := { E with hash }

/-- The keys of the block, if it has this filter. -/
def DataBlock.keysAt (i : ℕ) (blk : DataBlock) : List Bytes :=
  if blk.handle.offset / kFilterBase = i then blk.entries.map Prod.fst else []

namespace Tablebuilder
variable {F : Type} [AppendFile F] {E : TableEnv} {b : Tablebuilder F}
  {current es : List (Bytes × Bytes)} {key val k : Bytes} {blk : DataBlock} {i : ℕ}

/-- The contents of the filter block that `Finish` writes after these calls of `Add`. -/
def filterContents (E : TableEnv) (b : Tablebuilder F) (es : List (Bytes × Bytes)) : Bytes :=
  ((b.addAll E es).flush E).filterBlock.finish E.bloomfit E.hash

/-! ## What the calls leave alone -/

/-- `Add`, up to the check of the size. -/
def added (b : Tablebuilder F) (key val : Bytes) : Tablebuilder F :=
  let b := b.addIndexEntry key
  { b with
    filterBlock := b.filterBlock.addKey key
    lastKey := key
    numEntries := b.numEntries + 1
    dataBlock := b.dataBlock.add b.options.blockRestartInterval key val }

omit [AppendFile F] in
@[simp] theorem offset_added : (b.added key val).offset = b.offset := by
  rw [added, addIndexEntry]
  split <;> rfl

omit [AppendFile F] in
@[simp] theorem filterBlock_added : (b.added key val).filterBlock = b.filterBlock.addKey key := by
  rw [added, addIndexEntry]
  split <;> rfl

omit [AppendFile F] in
@[simp] theorem options_added : (b.added key val).options = b.options := by
  rw [added, addIndexEntry]
  split <;> rfl

omit [AppendFile F] in
@[simp] theorem dataBlock_added : (b.added key val).dataBlock =
    b.dataBlock.add b.options.blockRestartInterval key val := by
  rw [added, addIndexEntry]
  split <;> rfl

omit [AppendFile F] in
theorem empty_added : (b.added key val).dataBlock.empty = false := Blockbuilder.empty_add _ _ _ _

theorem flush_of_empty (h : b.dataBlock.empty = true) : b.flush E = b := by
  rw [flush, if_pos h]

theorem options_flush : (b.flush E).options = b.options := by
  rw [flush]
  split
  · rfl
  · obtain ⟨_, _, _, _, -, hframe⟩ := @writeBlock_frame F _ E b b.dataBlock
    rw [hframe]

theorem dataBlock_flush (h : b.dataBlock.empty = false) : (b.flush E).dataBlock = .reset := by
  rw [flush, if_neg (by rw [h]; exact Bool.false_ne_true)]

theorem offset_flush (h : b.dataBlock.empty = false) :
    (b.flush E).pendingHandle.offset = b.offset ∧ b.offset ≤ (b.flush E).offset ∧
      (b.flush E).filterBlock = b.filterBlock.startBlock E.bloomfit E.hash (b.flush E).offset := by
  obtain ⟨size, state, file, offset, hoffset, hframe⟩ := @writeBlock_frame F _ E b b.dataBlock
  rw [flush, if_neg (by rw [h]; exact Bool.false_ne_true), hframe]
  exact ⟨rfl, hoffset, rfl⟩

/-- The check of the size in `Add`. -/
def flushIfFull (E : TableEnv) (b : Tablebuilder F) : Tablebuilder F :=
  if b.dataBlock.currentSizeEstimate ≥ b.options.blockSize then b.flush E else b

theorem add_eq (E : TableEnv) (b : Tablebuilder F) (key val : Bytes) :
    b.add E key val = (b.added key val).flushIfFull E := rfl

/-- `Add` may end in a flush. -/
theorem add_cases (E : TableEnv) (b : Tablebuilder F) (key val : Bytes) :
    b.add E key val = b.added key val ∧ (b.add E key val).dataBlock.empty = false ∨
      b.add E key val = (b.added key val).flush E ∧ (b.add E key val).dataBlock.empty = true := by
  rw [add_eq, flushIfFull]
  split
  · refine .inr ⟨rfl, ?_⟩
    rw [flush, if_neg (by rw [empty_added]; exact Bool.false_ne_true)]
    rfl
  · exact .inl ⟨rfl, empty_added⟩

/-! ## The hash does not matter to the data blocks -/

def withFilter (b : Tablebuilder F) (filterBlock : FilterBlockbuilder) : Tablebuilder F :=
  { b with filterBlock }

theorem writeRawBlock_withHash (hash : Bytes → UInt32) (fb : FilterBlockbuilder) (contents : Bytes)
    (type : CompressionType) : (b.withFilter fb).writeRawBlock (E.withHash hash) contents type =
      ((b.writeRawBlock E contents type).1, (b.writeRawBlock E contents type).2.withFilter fb) := by
  rcases hfirst : AppendFile.append b.file contents with ⟨state, file⟩
  rcases hsecond : AppendFile.append file (blockBack E contents type) with ⟨state', file'⟩
  have hback : blockBack (E.withHash hash) contents type = blockBack E contents type := rfl
  simp only [writeRawBlock, withFilter, hfirst, hback, hsecond]
  by_cases hstate : state = .ok
  · by_cases hstate' : state' = .ok
    · simp only [if_pos hstate, if_pos hstate']
    · simp only [if_pos hstate, if_neg hstate']
  · simp only [if_neg hstate]

theorem writeBlock_withHash (hash : Bytes → UInt32) (fb : FilterBlockbuilder) (block : Blockbuilder) :
    (b.withFilter fb).writeBlock (E.withHash hash) block =
      ((b.writeBlock E block).1, (b.writeBlock E block).2.withFilter fb) := by
  have hoptions : (b.withFilter fb).options = b.options := rfl
  have hcompress : (E.withHash hash).compress = E.compress := rfl
  have hcleared : (E.withHash hash).cleared = E.cleared := rfl
  simp only [writeBlock, hoptions, hcompress, hcleared]
  cases b.options.compression with
  | noCompression => exact writeRawBlock_withHash hash fb _ _
  | snappyCompression =>
    by_cases hlen : (E.compress block.finish).length ≠ 0
    · simp only [if_pos hlen]
      exact writeRawBlock_withHash hash fb _ _
    · simp only [if_neg hlen]
      exact writeRawBlock_withHash hash fb _ _

theorem flush_withHash (hash : Bytes → UInt32) {fb : FilterBlockbuilder} (h : fb.Like b.filterBlock) :
    ∃ fb', (b.withFilter fb).flush (E.withHash hash) = (b.flush E).withFilter fb' ∧
      fb'.Like (b.flush E).filterBlock := by
  have hblock : (b.withFilter fb).dataBlock = b.dataBlock := rfl
  rw [flush, flush, hblock]
  split
  · exact ⟨fb, rfl, h⟩
  · rw [writeBlock_withHash]
    obtain ⟨size, state, file, offset, -, hframe⟩ := @writeBlock_frame F _ E b b.dataBlock
    refine ⟨_, rfl, ?_⟩
    rw [hframe]
    exact h.startBlock _

theorem flushIfFull_withHash (hash : Bytes → UInt32) {fb : FilterBlockbuilder}
    (h : fb.Like b.filterBlock) :
    ∃ fb', (b.withFilter fb).flushIfFull (E.withHash hash) = (b.flushIfFull E).withFilter fb' ∧
      fb'.Like (b.flushIfFull E).filterBlock := by
  by_cases hsize : b.dataBlock.currentSizeEstimate ≥ b.options.blockSize
  · have hsize' : (b.withFilter fb).dataBlock.currentSizeEstimate ≥
        (b.withFilter fb).options.blockSize := hsize
    rw [flushIfFull, flushIfFull, if_pos hsize, if_pos hsize']
    exact flush_withHash hash h
  · have hsize' : ¬ (b.withFilter fb).dataBlock.currentSizeEstimate ≥
        (b.withFilter fb).options.blockSize := hsize
    rw [flushIfFull, flushIfFull, if_neg hsize, if_neg hsize']
    exact ⟨fb, rfl, h⟩

theorem add_withHash (hash : Bytes → UInt32) {fb : FilterBlockbuilder} (h : fb.Like b.filterBlock)
    (key val : Bytes) :
    ∃ fb', (b.withFilter fb).add (E.withHash hash) key val = (b.add E key val).withFilter fb' ∧
      fb'.Like (b.add E key val).filterBlock := by
  have hadded : (b.withFilter fb).added key val = (b.added key val).withFilter (fb.addKey key) := by
    obtain ⟨_, _, _, _, _, _, _, _, _, _, _, pendingIndexEntry, _⟩ := b
    cases pendingIndexEntry <;> rfl
  rw [add_eq, add_eq, hadded]
  apply flushIfFull_withHash
  rw [filterBlock_added]
  exact h.addKey key

theorem dataBlocks_withHash (hash : Bytes → UInt32) {fb : FilterBlockbuilder}
    (h : fb.Like b.filterBlock) :
    (b.withFilter fb).dataBlocks (E.withHash hash) current es = b.dataBlocks E current es := by
  induction es generalizing b fb current with
  | nil =>
    obtain ⟨fb', hflush, _⟩ := @flush_withHash F _ E b hash fb h
    rw [dataBlocks, dataBlocks, hflush]
    rfl
  | cons e es ih =>
    obtain ⟨fb', hadd, hlike⟩ := @add_withHash F _ E b hash fb h e.1 e.2
    simp only [dataBlocks, hadd, ih hlike]
    rfl

theorem addAll_withHash (hash : Bytes → UInt32) {fb : FilterBlockbuilder}
    (h : fb.Like b.filterBlock) :
    ∃ fb', (b.withFilter fb).addAll (E.withHash hash) es = (b.addAll E es).withFilter fb' ∧
      fb'.Like (b.addAll E es).filterBlock := by
  induction es generalizing b fb with
  | nil => exact ⟨fb, rfl, h⟩
  | cons e es ih =>
    obtain ⟨fb', hadd, hlike⟩ := @add_withHash F _ E b hash fb h e.1 e.2
    rw [addAll, List.foldl_cons, hadd]
    exact ih hlike

theorem length_filterContents_withHash (hash : Bytes → UInt32) :
    (b.filterContents (E.withHash hash) es).length = (b.filterContents E es).length := by
  obtain ⟨fb, hadd, hlike⟩ := @addAll_withHash F _ E b es hash _ (.refl b.filterBlock)
  obtain ⟨fb', hflush, hlike'⟩ := @flush_withHash F _ E _ hash fb hlike
  have hb : b.withFilter b.filterBlock = b := rfl
  rw [hb] at hadd
  rw [filterContents, hadd, hflush]
  exact hlike'.length_finish

/-! ## The groups of the data blocks -/

/-- The filter of a builder stands for these groups, and the last of them is that of the next block. -/
structure Grouped (E : TableEnv) (b : Tablebuilder F) (g : FilterGroups) : Prop where
  groups : b.filterBlock.Groups E.bloomfit E.hash g
  length : g.closed.length = b.offset / kFilterBase

omit [AppendFile F] in
theorem grouped_new (opt : Options) (file : F) : Grouped E (new opt file) {} :=
  ⟨.empty, (Nat.zero_div _).symm⟩

omit [AppendFile F] in
theorem Grouped.added {g : FilterGroups} (hg : Grouped E b g) (key val : Bytes) :
    Grouped E (b.added key val) (g.addKey key) := by
  constructor
  · rw [filterBlock_added]
    exact hg.groups.addKey key
  · rw [offset_added]
    exact hg.length

theorem Grouped.flush {g : FilterGroups} (hg : Grouped E b g) (hb : b.dataBlock.empty = false) :
    Grouped E (b.flush E) (g.startBlock (b.flush E).offset) := by
  obtain ⟨_, hle, hfilter⟩ := @offset_flush F _ E b hb
  constructor
  · rw [hfilter]
    exact hg.groups.startBlock _
  · rw [FilterGroups.length_startBlock, hg.length]
    exact Nat.max_eq_right (Nat.div_le_div_right hle)

theorem entries_ne_nil (hb : b.dataBlock.empty = true ↔ current = [])
    (hblk : blk ∈ b.dataBlocks E current es) : blk.entries ≠ [] := by
  induction es generalizing b current with
  | nil =>
    rw [dataBlocks] at hblk
    split at hblk
    · cases hblk
    · next hempty =>
      rw [List.mem_singleton.mp hblk]
      exact mt hb.mpr hempty
  | cons e es ih =>
    simp only [dataBlocks] at hblk
    split at hblk
    · next hempty =>
      rcases List.mem_cons.mp hblk with rfl | hblk
      · simp
      · exact ih (by simp [hempty]) hblk
    · next hempty => exact ih (by simp [hempty]) hblk

theorem addAll_cons (e : Bytes × Bytes) : b.addAll E (e :: es) = (b.add E e.1 e.2).addAll E es := rfl

/-- The groups of a builder become those of its data blocks. -/
theorem Grouped.groupAt_eq {g : FilterGroups} {keys : ℕ → List Bytes} (hg : Grouped E b g)
    (hempty : b.dataBlock.empty = true → current = [])
    (hkeys : ∀ i, g.groupAt i =
      keys i ++ if b.offset / kFilterBase = i then current.map Prod.fst else []) :
    ∃ g', ((b.addAll E es).flush E).filterBlock.Groups E.bloomfit E.hash g' ∧
      ∀ i, g'.groupAt i = keys i ++ (b.dataBlocks E current es).flatMap (·.keysAt i) := by
  induction es generalizing b g current keys with
  | nil =>
    rw [dataBlocks]
    split
    · next hb =>
      rw [addAll, List.foldl_nil, flush_of_empty hb]
      refine ⟨g, hg.groups, fun i => ?_⟩
      rw [hkeys, hempty hb]
      simp
    · next hb =>
      rw [Bool.not_eq_true] at hb
      refine ⟨_, (hg.flush hb).groups, fun i => ?_⟩
      rw [FilterGroups.groupAt_startBlock, hkeys, List.flatMap_singleton, DataBlock.keysAt,
        (offset_flush hb).1]
  | cons e es ih =>
    have hadded := hg.added e.1 e.2
    have hnow : ∀ i, (g.addKey e.1).groupAt i =
        keys i ++ if b.offset / kFilterBase = i then (current ++ [e]).map Prod.fst else [] := by
      intro i
      rw [FilterGroups.groupAt_addKey, hg.length, hkeys]
      by_cases hi : b.offset / kFilterBase = i
      · rw [if_pos hi.symm, if_pos hi, if_pos hi, List.map_append, List.append_assoc]
        rfl
      · rw [if_neg (Ne.symm hi), if_neg hi, if_neg hi]
    rw [addAll_cons]
    simp only [dataBlocks]
    rcases add_cases E b e.1 e.2 with ⟨hadd, hb⟩ | ⟨hadd, hb⟩
    · rw [if_neg (by rw [hb]; exact Bool.false_ne_true)]
      refine ih (hadd ▸ hadded) (fun h => absurd (hb.symm.trans h) Bool.false_ne_true) fun i => ?_
      rw [hnow, hadd, offset_added]
    · -- the block is written, and its keys are those of the group so far
      rw [if_pos hb]
      have hflush := hadded.flush (@empty_added F b e.1 e.2)
      obtain ⟨g', hgroups, hmem⟩ := @ih (b.add E e.1 e.2) [] _ _ (hadd ▸ hflush) (fun _ => rfl)
        (fun i => by
          rw [FilterGroups.groupAt_startBlock, hnow, List.map_nil, ite_self, List.append_nil])
      refine ⟨g', hgroups, fun i => ?_⟩
      rw [hmem, List.flatMap_cons, DataBlock.keysAt, hadd, (offset_flush empty_added).1,
        offset_added, List.append_assoc]

/-- The keys of the data blocks with this filter, in the order in which they were added. -/
def filterKeys (E : TableEnv) (b : Tablebuilder F) (es : List (Bytes × Bytes)) (i : ℕ) :
    List Bytes :=
  (b.dataBlocks E [] es).flatMap (·.keysAt i)

theorem mem_filterKeys : k ∈ b.filterKeys E es i ↔ ∃ blk ∈ b.dataBlocks E [] es,
    blk.handle.offset / kFilterBase = i ∧ ∃ e ∈ blk.entries, e.1 = k := by
  rw [filterKeys, List.mem_flatMap]
  refine exists_congr fun blk => and_congr_right fun _ => ?_
  rw [DataBlock.keysAt]
  split
  · next hi => simp [hi]
  · next hi => simp [hi]

/-- The block that `Finish` writes is the filter of groups with the keys of the data blocks. -/
theorem filterContents_eq (E : TableEnv) (opt : Options) (file : F) (es : List (Bytes × Bytes)) :
    ∃ groups : List (List Bytes),
      (new opt file).filterContents E es = Yubindb.filterBlock E.bloomfit E.hash groups ∧
      ∀ i, groups.getD i [] = (new opt file).filterKeys E es i := by
  obtain ⟨g, hgroups, heq⟩ := @Grouped.groupAt_eq F _ E _ [] es _ (fun _ => []) (grouped_new opt file)
    (fun _ => rfl) fun i => by cases i <;> simp [FilterGroups.groupAt]
  refine ⟨g.finish, hgroups.finish, fun i => ?_⟩
  rw [FilterGroups.getD_finish, heq, List.nil_append, filterKeys]

/-! ## Lookups -/

/-- The test asks the filter of the keys in the group of the block. -/
theorem notFound_eq {opt : Options} {file : F} {value rest behind : Bytes}
    (hsize : ((new opt file).filterContents E es).length < 2 ^ 32)
    (hblk : blk ∈ (new opt file).dataBlocks E [] es)
    (hvalue : BlockHandle.decodeFrom value = some (blk.handle, rest)) :
    Table.notFound (some (.new ((new opt file).filterContents E es) behind)) E.hash value k =
      !BloomFilter.keyMayMatch E.hash k (E.bloomfit.createFilter E.hash
        ((new opt file).filterKeys E es (blk.handle.offset / kFilterBase))) := by
  obtain ⟨groups, hcontents, hgroups⟩ := filterContents_eq E opt file es
  have hne : (new opt file).filterKeys E es (blk.handle.offset / kFilterBase) ≠ [] := by
    have hempty : (new opt file).dataBlock.empty = true ↔ ([] : List (Bytes × Bytes)) = [] :=
      ⟨fun _ => rfl, fun _ => rfl⟩
    obtain ⟨e, he⟩ := List.exists_mem_of_ne_nil _ (entries_ne_nil hempty hblk)
    exact List.ne_nil_of_mem (mem_filterKeys.mpr ⟨blk, hblk, rfl, e, he, rfl⟩)
  have hlt : blk.handle.offset / kFilterBase < groups.length := by
    by_contra hge
    exact hne ((hgroups _).symm.trans (List.getD_eq_default _ _ (Nat.not_lt.mp hge)))
  rw [hcontents] at hsize
  simp only [Table.notFound, hvalue]
  rw [hcontents, keyMayMatch_filterBlock behind hsize, if_pos hlt, hgroups, filterBytes, if_neg hne]

/-- The test lets a lookup pass under every hash only if the very key of the lookup, with its sequence
number and the type of a value, is one of those keys of the data blocks with the same filter of which
the filter has the bits: of all of them, while they are fewer than `2 ^ 31`. -/
theorem notFound_iff {opt : Options} {file : F} {value rest u : Bytes} {s : ℕ}
    (hsize : ((new opt file).filterContents E es).length < 2 ^ 32)
    (hblk : blk ∈ (new opt file).dataBlocks E [] es)
    (hvalue : BlockHandle.decodeFrom value = some (blk.handle, rest)) :
    (∀ hash behind, Table.notFound
        (some (.new ((new opt file).filterContents (E.withHash hash) es) behind)) hash value
        (Lookey.new u s).internalKey.Key = false) ↔
      (Lookey.new u s).internalKey.Key ∈ E.bloomfit.hashed
        ((new opt file).filterKeys E es (blk.handle.offset / kFilterBase)) := by
  have hblocks (hash : Bytes → UInt32) : (new opt file).dataBlocks (E.withHash hash) [] es =
      (new opt file).dataBlocks E [] es :=
    @dataBlocks_withHash F _ E (new opt file) [] es hash {} (.refl _)
  have htest (hash : Bytes → UInt32) (behind : Bytes) := @notFound_eq F _ (E.withHash hash) es
    (Lookey.new u s).internalKey.Key blk opt file value rest behind
    (by rw [length_filterContents_withHash]; exact hsize) (by rw [hblocks]; exact hblk) hvalue
  simp only [filterKeys, hblocks] at htest
  constructor
  · intro hpass
    by_contra hno
    have hmay := hpass (BloomFilter.onlyHash (Lookey.new u s).internalKey.Key) []
    exact E.bloomfit.not_keyMayMatch_of_not_mem hno
      ((Bool.not_eq_false' _).mp ((htest _ _).symm.trans hmay))
  · intro hkey hash behind
    exact (htest hash behind).trans (congrArg Bool.not (E.bloomfit.keyMayMatch_of_mem hkey))

/-- A table with one entry, of the user key `a` at sequence 1, and a lookup at sequence 2. -/
theorem notFound_newer :
    ∃ blk ∈ (new {} (StoredFile.mk [])).dataBlocks .sample []
        [((InternalKey.new [97] 1 .value).Key, [98])],
      (∃ e ∈ blk.entries, ∃ s ≤ 2, ∃ t, e.1 = (InternalKey.new [97] s t).Key) ∧
        Table.notFound (some (.new ((new {} (StoredFile.mk [])).filterContents .sample
          [((InternalKey.new [97] 1 .value).Key, [98])]) [])) TableEnv.sample.hash
          blk.handle.encodeTo (Lookey.new [97] 2).internalKey.Key = true := by
  refine ⟨⟨⟨0, 22⟩, [((InternalKey.new [97] 1 .value).Key, [98])]⟩, by decide +kernel, ?_, ?_⟩
  · exact ⟨_, List.mem_singleton_self _, 1, by decide, .value, rfl⟩
  · decide +kernel

/-- The same table, and the lookup at sequence 1. -/
theorem notFound_iff_single :
    Table.notFound (some (.new ((new {} (StoredFile.mk [])).filterContents
      (TableEnv.sample.withHash (fun _ => 7)) [((InternalKey.new [97] 1 .value).Key, [98])]) []))
      (fun _ => 7) (BlockHandle.encodeTo ⟨0, 22⟩) (Lookey.new [97] 1).internalKey.Key = false := by
  have hblk : (⟨⟨0, 22⟩, [((InternalKey.new [97] 1 .value).Key, [98])]⟩ : DataBlock) ∈
      (new {} (StoredFile.mk [])).dataBlocks .sample []
        [((InternalKey.new [97] 1 .value).Key, [98])] := by decide +kernel
  have hvalue : BlockHandle.decodeFrom (BlockHandle.encodeTo ⟨0, 22⟩) = some (⟨0, 22⟩, []) := by
    decide +kernel
  exact (notFound_iff (by decide +kernel) hblk hvalue).mpr (by decide +kernel) _ _

end Tablebuilder
end Yubindb
