import Yubindb.Db.Compaction
import Yubindb.Db.CompactionTrigger

/-!
# Trivial moves

`DBImpl::BackgroundCompaction` of `src/db/db.cpp`, when there is no immutable memtable.
-/

namespace Yubindb
open VersionSet

/-! ## The move -/

/-- The edit of a trivial move: `c->Edit()` with one deletion and one addition, both at `c->Level()`. -/
def Compaction.moveEdit (c : Compaction) (cf : FileMate) : VersionEdit :=
  (c.edit.deleteFile c.level.castSucc cf.num).addFile c.level.castSucc cf

/-- `BackgroundCompaction`; of a compaction that is no trivial move it makes a `CompactionState` only. -/
def VersionSet.backgroundCompaction (vs : VersionSet) (disk : Disk) (maxFileSize : Nat)
    (io : ManifestIo) : Option (State × VersionSet × Disk) := do
  match ← vs.pickCompaction maxFileSize with
  | (none, vs) => return (.ok, vs, disk)
  | (some c, vs) =>
    if c.isTrivialMove maxFileSize then
      let cf ← c.inputs0[0]?
      vs.logAndApply disk (c.moveEdit cf.file) io
    else return (.ok, vs, disk)

/-- The file of `inputs_[0]` is in the new version once, a level deeper, and the other files are where they
were. -/
def Compaction.MovesOnly (c : Compaction) (files files' : LevelFiles) : Prop :=
  ∃ cf, c.inputs0 = [cf] ∧ ∀ level f, (files' level).count f =
    if f = cf.file then (if level = c.level.succ then 1 else 0) else (files level).count f

/-! ## What the move does -/

variable {vs vs' vs₁ : VersionSet} {disk disk' : Disk} {io : ManifestIo} {maxFileSize : Nat}
  {c : Compaction} {cf : FileMate} {level : Level}

theorem backgroundCompaction_of_trivial
    (hpick : vs.pickCompaction maxFileSize = some (some c, vs₁))
    (htrivial : c.isTrivialMove maxFileSize = true) {cf : FilePtr} (hcf : c.inputs0 = [cf]) :
    vs.backgroundCompaction disk maxFileSize io = vs₁.logAndApply disk (c.moveEdit cf.file) io := by
  rw [backgroundCompaction, hpick]
  simp [htrivial, hcf]

theorem filesAt_moveEdit (hnew : c.edit.newFiles = []) :
    (c.moveEdit cf).filesAt level = if level = c.level.castSucc then [cf] else [] := by
  rw [VersionEdit.filesAt, Compaction.moveEdit, VersionEdit.addFile, VersionEdit.deleteFile, hnew]
  by_cases hlevel : level = c.level.castSucc
  · simp [hlevel]
  · simp [hlevel, Ne.symm hlevel]

/-- The edit takes back what it deletes. -/
theorem adds_of_deletes_moveEdit (hnew : c.edit.newFiles = []) (hdeleted : c.edit.deletedFiles = ∅)
    {n : Nat} (h : (c.moveEdit cf).Deletes level n) : (c.moveEdit cf).Adds level n := by
  have hmem : (level, n) ∈ c.edit.deletedFiles.insert (c.level.castSucc, cf.num) := h
  rw [hdeleted, Std.ExtTreeSet.mem_insert, Std.compare_eq_iff_eq] at hmem
  obtain ⟨rfl, rfl⟩ := Prod.mk.inj (hmem.resolve_right Std.ExtTreeSet.not_mem_empty)
  rw [VersionEdit.adds_iff, filesAt_moveEdit hnew, if_pos rfl]
  exact ⟨cf, List.mem_singleton_self cf, rfl⟩

/-- So the level of the inputs gets the file once more. -/
theorem under_moveEdit (base : Version) (hnew : c.edit.newFiles = [])
    (hdeleted : c.edit.deletedFiles = ∅) :
    base.under (c.moveEdit cf) level =
      base.files level ++ if level = c.level.castSucc then [cf] else [] := by
  have hbase : ((base.files level).filter fun f =>
      (c.moveEdit cf).Deletes level f.num → (c.moveEdit cf).Adds level f.num) = base.files level :=
    List.filter_eq_self.mpr fun f _ => decide_eq_true (adds_of_deletes_moveEdit hnew hdeleted)
  rw [Version.under, hbase, filesAt_moveEdit hnew]
  split <;> rfl

/-- The files of the version that the edit of a trivial move makes. -/
theorem perm_savedFiles_moveEdit (hpick : vs.pickCompaction maxFileSize = some (some c, vs₁)) :
    ((({ base := vs₁.nowversion } : Builder).apply (c.moveEdit cf)).savedFiles level).Perm
      (vs.nowversion.files level ++ if level = c.level.castSucc then [cf] else []) := by
  obtain ⟨hnow, hnew, hdeleted⟩ := pickCompaction_edit hpick
  rw [← under_moveEdit vs.nowversion hnew hdeleted, hnow]
  exact Builder.perm_under _ _ _

/-- A trivial move that succeeds does not move the file. -/
theorem not_movesOnly (hpick : vs.pickCompaction maxFileSize = some (some c, vs₁))
    (htrivial : c.isTrivialMove maxFileSize = true)
    (hmove : vs.backgroundCompaction disk maxFileSize io = some (.ok, vs', disk')) :
    ¬ c.MovesOnly vs.nowversion.files vs'.nowversion.files := by
  rintro ⟨cf, hcf, hcount⟩
  rw [backgroundCompaction_of_trivial hpick htrivial hcf] at hmove
  have hlevel : c.level.castSucc ≠ c.level.succ := Fin.castSucc_lt_succ.ne
  have hgone := hcount c.level.castSucc cf.file
  rw [if_pos rfl, if_neg hlevel, logAndApply_nowversion hmove,
    (perm_savedFiles_moveEdit hpick).count_eq, if_pos rfl, List.count_append] at hgone
  simp at hgone

/-- A file of level 0 whose keys are on both sides of those of the next. -/
def outerTable : FileMate :=
  ⟨3, 100, .new [1, 1, 0, 0, 0, 0, 0, 0] 3 .value, .new [4, 2, 0, 0, 0, 0, 0, 0] 4 .value⟩

/-- A file of level 0 with keys between those of the other. -/
def innerTable : FileMate :=
  ⟨4, 100, .new [2, 3, 0, 0, 0, 0, 0, 0] 5 .value, .new [3, 0, 0, 0, 0, 0, 0, 0] 6 .value⟩

/-- A version with the two files, whose level 0 is to be compacted. -/
def nestedVersion : Version where
  files level := if level = 0 then [outerTable, innerTable] else []
  compactionScore := 1
  compactionLevel := 0

/-- Level 0 has been compacted up to a key behind the second file. -/
def nestedTables : VersionSet :=
  { newVersionSet with
    nowversion := nestedVersion
    compactPointer := Function.update newVersionSet.compactPointer 0
      (InternalKey.new [3, 5, 0, 0, 0, 0, 0, 0] 9 .value).Key }

/-- What `PickCompaction` makes of it: the loop of `GetOverlappFiles` ends behind the first file, which lies
in the range of the second but not in its own, as `cmp` has the user keys. -/
def nestedPick : Compaction where
  level := ⟨0, by decide⟩
  maxOutputFileSize := 2 * 1024 * 1024
  edit := ({} : VersionEdit).setCompactPointer 0 outerTable.largest
  inputs0 := [⟨0, outerTable⟩]

/-- The version set behind it. -/
def nestedPicked : VersionSet :=
  { nestedTables with
    compactPointer :=
      Function.update nestedTables.compactPointer 0 outerTable.largest.Key }

theorem pickCompaction_nestedTables :
    nestedTables.pickCompaction (2 * 1024 * 1024) = some (some nestedPick, nestedPicked) := by
  have hend (userBegin userEnd : Bytes) (inputs : List FilePtr) :
      nestedTables.nowversion.overlapFrom 1 userBegin userEnd inputs = some inputs :=
    Version.overlapFrom_end (by decide)
  have hfile : nestedTables.nowversion.turnFile 0 = some (some outerTable) := by decide
  have hinner : nestedTables.nowversion.getOverlappFiles 0 innerTable.smallest innerTable.largest =
      some [⟨0, outerTable⟩] := by
    have hpush : Version.overlapTurn innerTable.smallest.extractUserKey
        innerTable.largest.extractUserKey outerTable = some .push := by decide
    rw [Version.getOverlappFiles, Version.overlapFrom_turn hfile, hpush]
    exact hend _ _ _
  have houter (level : Nat) :
      nestedTables.nowversion.getOverlappFiles level outerTable.smallest outerTable.largest =
        some [] := by
    have hskip : Version.overlapTurn outerTable.smallest.extractUserKey
        outerTable.largest.extractUserKey outerTable = some .skip := by decide
    rw [Version.getOverlappFiles, Version.overlapFrom_turn hfile, hskip]
    exact hend _ _ _
  have hchosen : nestedTables.chosenFile ⟨0, by decide⟩ = some innerTable := by decide
  have hpick : nestedTables.pickCompactionAt (2 * 1024 * 1024) ⟨0, by decide⟩ =
      some (nestedPick, nestedPicked) := by
    have hstart : nestedTables.startInputs ⟨0, by decide⟩ = some [⟨0, outerTable⟩] := by
      rw [startInputs, hchosen]
      exact hinner
    rw [pickCompactionAt, hstart, Option.bind_eq_bind, Option.bind_some,
      setupOtherInputs_of_nil rfl (houter 1)]
    rfl
  rw [pickCompaction, if_pos (by decide), dif_pos (by decide)]
  exact congrArg _ hpick

theorem exists_backgroundCompaction_nestedTables :
    ∃ vs' disk', nestedTables.backgroundCompaction newDb (2 * 1024 * 1024) {} =
      some (.ok, vs', disk') := by
  have hsome : (nestedPicked.logAndApply newDb (nestedPick.moveEdit outerTable) {}).isSome := by
    decide +kernel
  obtain ⟨⟨s, vs', disk'⟩, happly⟩ := Option.isSome_iff_exists.mp hsome
  obtain rfl : s = .ok := logAndApply_ok happly
  have hinputs : nestedPick.inputs0 = [⟨0, outerTable⟩] := rfl
  have hmove := @backgroundCompaction_of_trivial _ _ newDb {} _ _ pickCompaction_nestedTables
    (by decide) _ hinputs
  exact ⟨vs', disk', hmove.trans happly⟩

theorem not_movesOnly_nestedTables :
    ∃ vs' disk', nestedTables.backgroundCompaction newDb (2 * 1024 * 1024) {} =
        some (.ok, vs', disk') ∧
      ¬ nestedPick.MovesOnly nestedTables.nowversion.files vs'.nowversion.files := by
  obtain ⟨vs', disk', hmove⟩ := exists_backgroundCompaction_nestedTables
  exact ⟨vs', disk', hmove, not_movesOnly pickCompaction_nestedTables (by decide) hmove⟩

/-- The file of the move stands twice at its old level. -/
theorem movesOnly_fails :
    ¬ ∀ (vs vs₁ vs' : VersionSet) (disk disk' : Disk) (io : ManifestIo) (maxFileSize : Nat)
        (c : Compaction), vs.pickCompaction maxFileSize = some (some c, vs₁) →
      c.isTrivialMove maxFileSize = true →
      vs.backgroundCompaction disk maxFileSize io = some (.ok, vs', disk') →
      c.MovesOnly vs.nowversion.files vs'.nowversion.files := by
  intro h
  obtain ⟨vs', disk', hmove⟩ := exists_backgroundCompaction_nestedTables
  obtain ⟨cf, hcf, hcount⟩ :=
    h _ _ _ _ _ _ _ _ pickCompaction_nestedTables (by decide) hmove
  obtain rfl : ⟨0, outerTable⟩ = cf := List.cons.inj hcf |>.1
  have htwice : (vs'.nowversion.files 0).count outerTable = 2 := by
    rw [backgroundCompaction_of_trivial pickCompaction_nestedTables (by decide) hcf] at hmove
    rw [logAndApply_nowversion hmove]
    decide +kernel
  rw [hcount 0 outerTable] at htwice
  exact absurd htwice (by decide)

end Yubindb
