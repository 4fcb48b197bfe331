import Yubindb.Db.BlockLayout
import Yubindb.Db.StoredBlock

/-!
# The index of a table

The data blocks that a run of `Add` and `Finish` writes, and whether the index block leads to them. The
flag that defers the entry of a block is never set, so no run writes an entry.
-/

namespace Yubindb

/-- A data block as it is written, with the entries that were added to it. -/
structure DataBlock where
  handle : BlockHandle
  entries : List (Bytes × Bytes)
  deriving DecidableEq, Repr

/-- The entries of an index that leads to these blocks. -/
structure Indexes (index : List (Bytes × Bytes)) (blocks : List DataBlock) : Prop where
  values : index.map (·.2) = blocks.map (·.handle.encodeTo)
  upper : ∀ (i : ℕ) (sep : Bytes × Bytes) (blk : DataBlock),
    index[i]? = some sep → blocks[i]? = some blk → ∀ e ∈ blk.entries, (cmp e.1 sep.1).isLE
  next : ∀ (i : ℕ) (sep : Bytes × Bytes) (blk : DataBlock),
    index[i]? = some sep → blocks[i + 1]? = some blk → ∀ e ∈ blk.entries, cmp sep.1 e.1 = .lt
  seek : ∀ k : Bytes, 8 ≤ k.length →
    (index.findIdx fun e => cmp e.1 k ≠ .lt) =
      blocks.findIdx fun blk => blk.entries.any fun e => cmp e.1 k ≠ .lt

namespace Tablebuilder
variable {F : Type} [AppendFile F] {E : TableEnv} {b : Tablebuilder F}

/-- The data blocks of a run of `Add` and `Finish`, from a builder whose block holds `current`. -/
def dataBlocks (E : TableEnv) (b : Tablebuilder F) (current : List (Bytes × Bytes)) :
    List (Bytes × Bytes) → List DataBlock
  | [] => if b.dataBlock.empty then [] else [⟨(b.flush E).pendingHandle, current⟩]
  | e :: es =>
    let b := b.add E e.1 e.2
    if b.dataBlock.empty then ⟨b.pendingHandle, current ++ [e]⟩ :: b.dataBlocks E [] es
    else b.dataBlocks E (current ++ [e]) es

/-- The index block that `Finish` hands to `WriteBlock`. -/
def indexAtFinish (E : TableEnv) (b : Tablebuilder F) : Blockbuilder :=
  let b := { b.flush E with closed := true }
  let (filterHandle, b) := b.finishFilter E
  let (_, b) := b.finishMetaindex E filterHandle
  (b.addIndexEntry b.lastKey).indexBlock

/-- After these calls of `Add`, `Finish` writes an index that leads to all data blocks. -/
def WritesIndex (E : TableEnv) (b : Tablebuilder F) (es : List (Bytes × Bytes)) : Prop :=
  ∃ index, (b.addAll E es).indexAtFinish E =
      .build b.indexoptions.blockRestartInterval index ∧
    Indexes index (b.dataBlocks E [] es)

theorem dataBlocks_eq_nil {current es : List (Bytes × Bytes)} :
    b.dataBlocks E current es = [] ↔ b.dataBlock.empty ∧ es = [] := by
  induction es generalizing b current with
  | nil =>
    rw [dataBlocks]
    split
    · next h => simp [h]
    · next h => simp [h]
  | cons e es ih =>
    rw [dataBlocks]
    split
    · simp
    · next h =>
      rw [ih]
      simp [h]

/-! ## No entry is written -/

/-- No entry has been written, and none is owed. -/
def Unindexed (b : Tablebuilder F) : Prop := b.pendingIndexEntry = false ∧ b.indexBlock = {}

omit [AppendFile F] in
theorem unindexed_new (opt : Options) (file : F) : (new opt file).Unindexed := ⟨rfl, rfl⟩

omit [AppendFile F] in
theorem Unindexed.addIndexEntry (h : b.Unindexed) (key : Bytes) : b.addIndexEntry key = b := by
  rw [Tablebuilder.addIndexEntry, h.1]
  rfl

theorem Unindexed.writeRawBlock (h : b.Unindexed) (contents : Bytes) (type : CompressionType) :
    (b.writeRawBlock E contents type).2.Unindexed := by
  obtain ⟨_, _, _, -, hframe⟩ := @writeRawBlock_frame F _ E b contents type
  rw [hframe]
  exact h

theorem Unindexed.writeBlock (h : b.Unindexed) (block : Blockbuilder) :
    (b.writeBlock E block).2.Unindexed := by
  obtain ⟨_, _, _, _, -, hframe⟩ := @writeBlock_frame F _ E b block
  rw [hframe]
  exact h

theorem Unindexed.flush (h : b.Unindexed) : (b.flush E).Unindexed := by
  rw [Tablebuilder.flush]
  split
  · exact h
  · exact ⟨rfl, (h.writeBlock b.dataBlock).2⟩

theorem Unindexed.add (h : b.Unindexed) (key val : Bytes) : (b.add E key val).Unindexed := by
  rw [Tablebuilder.add, h.addIndexEntry]
  dsimp only
  split
  · exact Unindexed.flush h
  · exact h

theorem Unindexed.addAll (h : b.Unindexed) (es : List (Bytes × Bytes)) :
    (b.addAll E es).Unindexed := by
  induction es generalizing b with
  | nil => exact h
  | cons e es ih => exact ih (h.add e.1 e.2)

theorem Unindexed.finishFilter (h : b.Unindexed) : (b.finishFilter E).2.Unindexed := by
  rw [Tablebuilder.finishFilter]
  split
  · exact h.writeRawBlock _ _
  · exact h

theorem Unindexed.finishMetaindex (h : b.Unindexed) (handle : BlockHandle) :
    (b.finishMetaindex E handle).2.Unindexed := by
  rw [Tablebuilder.finishMetaindex]
  split
  · exact h.writeBlock _
  · exact h

theorem Unindexed.indexAtFinish (h : b.Unindexed) : b.indexAtFinish E = {} := by
  have hclosed : ({ b.flush E with closed := true } : Tablebuilder F).Unindexed := h.flush
  have hfilter := @Unindexed.finishFilter F _ E _ hclosed
  have hmetaindex (handle : BlockHandle) := @Unindexed.finishMetaindex F _ E _ hfilter handle
  rw [Tablebuilder.indexAtFinish]
  dsimp only
  rw [(hmetaindex _).addIndexEntry]
  exact (hmetaindex _).2

theorem eq_nil_of_build_eq {R : ℕ} {index : List (Bytes × Bytes)} (hR : 1 ≤ R)
    (h : Blockbuilder.build R index = {}) : index = [] := by
  by_contra hne
  have hlt := Blockbuilder.entryOffset_lt hR (List.length_pos_iff.mpr hne) (Nat.le_refl _)
  rw [Blockbuilder.entryOffset_length, h] at hlt
  exact Nat.not_lt_zero _ hlt

theorem not_writesIndex {opt : Options} {file : F} {es : List (Bytes × Bytes)} (hes : es ≠ []) :
    ¬ WritesIndex E (new opt file) es := by
  intro ⟨index, hbuild, hindexes⟩
  rw [((unindexed_new opt file).addAll es).indexAtFinish] at hbuild
  have hnil : index = [] := eq_nil_of_build_eq (Nat.le_refl 1) hbuild.symm
  have hvalues := hindexes.values
  rw [hnil, List.map_nil, eq_comm, List.map_eq_nil_iff, dataBlocks_eq_nil] at hvalues
  exact hes hvalues.2

/-- The index leads to the data blocks only if there are none. -/
theorem writesIndex_iff (E : TableEnv) (opt : Options) (file : F) (es : List (Bytes × Bytes)) :
    WritesIndex E (new opt file) es ↔ es = [] := by
  constructor
  · intro h
    by_contra hes
    exact not_writesIndex hes h
  · intro hes
    subst hes
    refine ⟨[], (unindexed_new opt file).indexAtFinish, ?_⟩
    constructor
    · rfl
    · intro i sep blk h
      cases h
    · intro i sep blk h
      cases h
    · intro k _
      rfl

/-- One entry with the user key `a`. -/
theorem not_writesIndex_single :
    ¬ WritesIndex .sample (new {} (StoredFile.mk [])) [((InternalKey.new [97] 1 .value).Key, [98])] :=
  not_writesIndex (List.cons_ne_nil _ _)

end Tablebuilder
end Yubindb
