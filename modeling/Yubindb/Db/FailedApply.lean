import Yubindb.Db.CompactionTrigger

/-!
# A `LogAndApply` that fails

`LogAndApply` applies the edit and scores the result before it writes anything. The builder puts the
compaction pointers of the edit into the version set, and `Finalize` the scores into `nowversion`;
what fails behind them takes back neither.
-/

namespace Yubindb

/-! ## Compaction pointers -/

/-- The last compaction pointer that the edit has for the level. -/
def VersionEdit.lastPointer (edit : VersionEdit) (level : Level) : Option InternalKey :=
  (edit.compactPointers.filter (·.1 = level)).getLast?.map Prod.snd

theorem Builder.applyCompactPointers_apply (edit : VersionEdit) (cp : Level → Bytes)
    (level : Level) :
    applyCompactPointers edit cp level =
      ((edit.lastPointer level).map InternalKey.Key).getD (cp level) := by
  rw [applyCompactPointers, VersionEdit.lastPointer]
  induction edit.compactPointers generalizing cp with
  | nil => rfl
  | cons p ps ih =>
    rw [List.foldl_cons, ih]
    by_cases hp : p.1 = level
    · rw [List.filter_cons_of_pos (by simpa using hp), List.getLast?_cons, ← hp,
        Function.update_self]
      cases (ps.filter (·.1 = p.1)).getLast? <;> rfl
    · rw [List.filter_cons_of_neg (by simpa using hp), Function.update_of_ne (Ne.symm hp)]

theorem Builder.applyCompactPointers_eq_self_iff {edit : VersionEdit} {cp : Level → Bytes} :
    applyCompactPointers edit cp = cp ↔ ∀ level, ∀ key ∈ edit.lastPointer level, key.Key = cp level := by
  rw [funext_iff]
  refine forall_congr' fun level => ?_
  rw [applyCompactPointers_apply]
  cases edit.lastPointer level <;> simp

/-! ## The failure -/

namespace VersionSet

/-- What a failed call must not change: `Current()` with its files and its scores, and the other
fields but `descriptor_log`. -/
structure Unchanged (vs vs' : VersionSet) : Prop where
  nowversion : vs'.nowversion = vs.nowversion
  versionlist : vs'.versionlist = vs.versionlist
  compactPointer : vs'.compactPointer = vs.compactPointer
  logNumber : vs'.logNumber = vs.logNumber
  lastSequence : vs'.lastSequence = vs.lastSequence
  nextFileNumber : vs'.nextFileNumber = vs.nextFileNumber

variable {vs vs' : VersionSet} {disk disk' : Disk} {edit : VersionEdit} {io : ManifestIo} {s : State}

/-- Wherever the call fails, it leaves the pointers of the edit and the scores of the edited files. -/
theorem logAndApply_fails (h : vs.logAndApply disk edit io = some (s, vs', disk')) (hs : s ≠ .ok) :
    ∃ i ∈ scoredLevels.argmax (levelScore (vs.nowversion.under edit)),
      vs' = { vs with
        compactPointer := Builder.applyCompactPointers edit vs.compactPointer
        descriptorLog := none
        nowversion := { vs.nowversion with
          compactionLevel := i.val
          compactionScore := levelScore (vs.nowversion.under edit) i } } := by
  obtain ⟨v, hv, rfl⟩ := logAndApply_eq_failed h hs
  have hscore : levelScore v.files = levelScore (vs.nowversion.under edit) := by
    refine levelScore_perm fun level => ?_
    rw [Builder.saveTo] at hv
    split at hv
    · cases hv
      exact Builder.perm_under vs.nowversion edit level
    · cases hv
  let cp := Builder.applyCompactPointers edit vs.compactPointer
  obtain ⟨i, hi, hfinal⟩ := finalize_argmax { vs with compactPointer := cp } v
  rw [hscore] at hi hfinal
  exact ⟨i, hi, by rw [hfinal]⟩

/-- A failed call leaves everything as it was exactly if its pointers repeat those of the version
set and `nowversion` has the scores of the edited files already. -/
theorem logAndApply_unchanged_iff (h : vs.logAndApply disk edit io = some (s, vs', disk'))
    (hs : s ≠ .ok) :
    vs.Unchanged vs' ↔
      (∀ level, ∀ key ∈ edit.lastPointer level, key.Key = vs.compactPointer level) ∧
      ∃ i ∈ scoredLevels.argmax (levelScore (vs.nowversion.under edit)),
        vs.nowversion.compactionLevel = i.val ∧
        vs.nowversion.compactionScore = levelScore (vs.nowversion.under edit) i := by
  obtain ⟨i, hi, rfl⟩ := logAndApply_fails h hs
  rw [← Builder.applyCompactPointers_eq_self_iff]
  constructor
  · rintro ⟨hnow, -, hptr, -, -, -⟩
    have hlevel : (i.val : Int) = vs.nowversion.compactionLevel :=
      congrArg Version.compactionLevel hnow
    have hscore : levelScore (vs.nowversion.under edit) i = vs.nowversion.compactionScore :=
      congrArg Version.compactionScore hnow
    exact ⟨hptr, i, hi, hlevel.symm, hscore.symm⟩
  · rintro ⟨hptr, j, hj, hlevel, hscore⟩
    cases Option.mem_unique hi hj
    have hnow : { vs.nowversion with
        compactionLevel := i.val
        compactionScore := levelScore (vs.nowversion.under edit) i } = vs.nowversion := by
      rw [← hlevel, ← hscore]
    exact ⟨hnow, rfl, hptr, rfl, rfl, rfl⟩

end VersionSet

/-! ## A failed `Sync`

On a new database: the output of a compaction, a table of twenty megabytes for level 1. -/

def bigTable : VersionEdit where
  newFiles := [(1, ⟨3, 20 * 2 ^ 20, .new [107] 1 .value, .new [107] 1 .value⟩)]

def failedSync : ManifestIo where
  sync := .ioError

/-- No version has the table, but `NeedsCompaction` is on. -/
theorem logAndApply_failedSync :
    ∃ vs disk, newVersionSet.logAndApply newDb bigTable failedSync = some (.ioError, vs, disk) ∧
      vs.needsCompaction = true := by
  have hrun : (newVersionSet.logAndApply newDb bigTable failedSync).map
      (fun r => (r.1, r.2.1.needsCompaction)) = some (.ioError, true) := by decide +kernel
  obtain ⟨⟨s, vs, disk⟩, hrun, hr⟩ := Option.map_eq_some_iff.mp hrun
  cases congrArg Prod.fst hr
  exact ⟨vs, disk, hrun, congrArg Prod.snd hr⟩

theorem logAndApply_unchanged_failedSync :
    ∃ vs disk, newVersionSet.logAndApply newDb bigTable failedSync = some (.ioError, vs, disk) ∧
      (newVersionSet.Unchanged vs ↔
        (∀ level, ∀ key ∈ bigTable.lastPointer level,
          key.Key = newVersionSet.compactPointer level) ∧
        ∃ i ∈ VersionSet.scoredLevels.argmax
            (VersionSet.levelScore (newVersionSet.nowversion.under bigTable)),
          newVersionSet.nowversion.compactionLevel = i.val ∧
          newVersionSet.nowversion.compactionScore =
            VersionSet.levelScore (newVersionSet.nowversion.under bigTable) i) := by
  obtain ⟨vs, disk, hrun, -⟩ := logAndApply_failedSync
  exact ⟨vs, disk, hrun, VersionSet.logAndApply_unchanged_iff hrun (by decide)⟩

/-- The score of the table that is not there stays in `nowversion`. -/
theorem not_logAndApply_unchanged :
    ∃ vs disk, newVersionSet.logAndApply newDb bigTable failedSync = some (.ioError, vs, disk) ∧
      ¬ newVersionSet.Unchanged vs := by
  obtain ⟨vs, disk, hrun, hneeds⟩ := logAndApply_failedSync
  refine ⟨vs, disk, hrun, fun hsame => ?_⟩
  rw [VersionSet.needsCompaction, hsame.nowversion] at hneeds
  have hidle : newVersionSet.needsCompaction = false := by decide +kernel
  exact Bool.false_ne_true (hidle.symm.trans hneeds)

end Yubindb
