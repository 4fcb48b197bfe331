import Yubindb.Db.ManifestRecovery

/-!
# Deleting obsolete files

`DBImpl::DeleteObsoleteFiles` in `src/db/db.cpp`.
-/

namespace Yubindb

/-- The members of `DBImpl` that say which files are in use. -/
structure FilesInUse where
  bgError : State := .ok
  versions : VersionSet
  pendingFile : Finset Nat := ∅
  pendingOutputs : Finset Nat := ∅

/-- A file of some version of `versionlist` has this number. -/
def VersionSet.Live (vs : VersionSet) (n : Nat) : Prop :=
  ∃ files ∈ vs.versionlist, ∃ level, ∃ f ∈ files level, f.num = n

theorem VersionSet.mem_addLiveFiles {vs : VersionSet} {live : Finset Nat} {n : Nat} :
    n ∈ vs.addLiveFiles live ↔ n ∈ live ∨ vs.Live n := by
  have hfiles (fs : List FileMate) (live : Finset Nat) :
      n ∈ fs.foldl (fun live f => insert f.num live) live ↔ n ∈ live ∨ ∃ f ∈ fs, f.num = n := by
    induction fs generalizing live with
    | nil => simp
    | cons f fs ih =>
      rw [List.foldl_cons, ih, Finset.mem_insert, List.exists_mem_cons_iff, or_assoc,
        or_left_comm, @eq_comm _ n]
  have hlevels (ls : List Level) (files : LevelFiles) (live : Finset Nat) :
      n ∈ ls.foldl (fun live level =>
          (files level).foldl (fun live f => insert f.num live) live) live ↔
        n ∈ live ∨ ∃ level ∈ ls, ∃ f ∈ files level, f.num = n := by
    induction ls generalizing live with
    | nil => simp
    | cons l ls ih => rw [List.foldl_cons, ih, hfiles, List.exists_mem_cons_iff, or_assoc]
  rw [addLiveFiles, Live]
  induction vs.versionlist generalizing live with
  | nil => simp
  | cons files rest ih =>
    rw [List.foldl_cons]
    refine ih.trans ?_
    rw [hlevels, List.exists_mem_cons_iff, or_assoc]
    simp only [List.mem_finRange, true_and]

namespace FilesInUse

/-- The `switch` of `DeleteObsoleteFiles`. -/
def keep (db : FilesInUse) (live : Finset Nat) (num : Nat) : FileType → Bool
  | .kCurrentFile | .kDBLockFile | .kInfoLogFile => true
  | .kDescriptorFile => num ≥ db.versions.manifestFileNumber
  | .kLogFile => num ≥ db.versions.logNumber
  | .kTableFile | .kTempFile => num ∈ live

/-- The loop of `DeleteObsoleteFiles`: the names of the files that it deletes; nothing when
`ParsefileName` leaves the string that it parses. -/
def deleteLoop (db : FilesInUse) (live : Finset Nat) : List FileName → Option (List FileName)
  | [] => some []
  | name :: filenames => do
    let parsed ← parsefileName name
    let deleted ← db.deleteLoop live filenames
    match parsed with
    | some (num, type) => return if db.keep live num type then deleted else name :: deleted
    | none => return deleted

/-- `DeleteObsoleteFiles`, on what `GetChildren` lists. -/
def deleteObsoleteFiles (db : FilesInUse) (filenames : List FileName) : Option (List FileName) :=
  if db.bgError ≠ .ok then some []
  else db.deleteLoop (db.versions.addLiveFiles db.pendingFile) filenames

/-- A table that a version has or that is still being written. -/
def Protected (db : FilesInUse) (n : Nat) : Prop := db.versions.Live n ∨ n ∈ db.pendingOutputs

/-- No file that is needed is deleted. -/
structure Safe (db : FilesInUse) (deleted : List FileName) : Prop where
  tables : ∀ n, db.Protected n → tableFileName n ∉ deleted
  logs : ∀ n, n ≥ db.versions.logNumber → logFileName n ∉ deleted
  manifest : descriptorFileName db.versions.manifestFileNumber ∉ deleted

variable {db : FilesInUse} {live : Finset Nat} {filenames deleted : List FileName}

theorem deleteLoop_isSome_iff :
    (db.deleteLoop live filenames).isSome ↔ ∀ name ∈ filenames, parsefileName name ≠ none := by
  induction filenames with
  | nil => simp [deleteLoop]
  | cons name filenames ih =>
    rw [List.forall_mem_cons, ← ih, deleteLoop]
    cases parsefileName name with
    | none => simp
    | some parsed =>
      cases db.deleteLoop live filenames with
      | none => simp
      | some deleted => cases parsed <;> simp

theorem mem_deleteLoop (h : db.deleteLoop live filenames = some deleted) {name : FileName} :
    name ∈ deleted ↔ name ∈ filenames ∧
      ∃ num type, parsefileName name = some (some (num, type)) ∧ db.keep live num type = false := by
  induction filenames generalizing deleted with
  | nil =>
    cases h
    simp
  | cons head filenames ih =>
    obtain ⟨parsed, hparsed, h⟩ := Option.bind_eq_some_iff.mp h
    obtain ⟨deleted', hdeleted, h⟩ := Option.bind_eq_some_iff.mp h
    have ih := ih hdeleted
    have hhead (hnot : ¬ ∃ num type, parsefileName head = some (some (num, type)) ∧
        db.keep live num type = false) : name ∈ deleted' ↔ name ∈ head :: filenames ∧
          ∃ num type, parsefileName name = some (some (num, type)) ∧
            db.keep live num type = false := by
      rw [ih, List.mem_cons]
      constructor
      · exact fun ⟨hmem, hdel⟩ => ⟨.inr hmem, hdel⟩
      · rintro ⟨rfl | hmem, hdel⟩
        · exact absurd hdel hnot
        · exact ⟨hmem, hdel⟩
    cases parsed with
    | none =>
      cases h
      refine hhead ?_
      rintro ⟨num, type, h, -⟩
      rw [hparsed] at h
      cases h
    | some p =>
      obtain ⟨num, type⟩ := p
      cases hkeep : db.keep live num type with
      | true =>
        simp only [hkeep, if_true] at h
        cases h
        refine hhead ?_
        rintro ⟨num', type', h, hfalse⟩
        rw [hparsed] at h
        cases h
        rw [hkeep] at hfalse
        cases hfalse
      | false =>
        simp only [hkeep, if_neg Bool.false_ne_true] at h
        cases h
        rw [List.mem_cons, List.mem_cons, ih]
        constructor
        · rintro (rfl | ⟨hmem, h⟩)
          · exact ⟨.inl rfl, num, type, hparsed, hkeep⟩
          · exact ⟨.inr hmem, h⟩
        · rintro ⟨rfl | hmem, h⟩
          · exact .inl rfl
          · exact .inr ⟨hmem, h⟩

theorem tableFileName_mem_deleteLoop (h : db.deleteLoop live filenames = some deleted) (n : Nat) :
    tableFileName n ∈ deleted ↔ tableFileName n ∈ filenames ∧ readNumber n ∉ live := by
  rw [mem_deleteLoop h]
  simp [parsefileName_tableFileName, keep]

theorem logFileName_mem_deleteLoop (h : db.deleteLoop live filenames = some deleted) (n : Nat) :
    logFileName n ∈ deleted ↔
      logFileName n ∈ filenames ∧ readNumber n < db.versions.logNumber := by
  rw [mem_deleteLoop h]
  simp [parsefileName_logFileName, keep]

theorem descriptorFileName_not_mem_deleteLoop (h : db.deleteLoop live filenames = some deleted)
    (n : Nat) : descriptorFileName n ∉ deleted := by
  rw [mem_deleteLoop h]
  simp [parsefileName_descriptorFileName]

end FilesInUse

/-- The names that `ParsefileName` parses without leaving them. -/
theorem parsefileName_ne_none_iff {name : FileName} :
    parsefileName name ≠ none ↔
      '.' ∈ name ∨ name ∈ ["CURRENT".toList, "LOCK".toList, "LOG".toList] ∨
        "MANIFEST-".toList <+: name := by
  have hif {α : Type} {p : Prop} [Decidable p] (a b : α) :
      (if p then some a else some b) = some (if p then a else b) := by split <;> rfl
  simp only [parsefileName, hif]
  split_ifs with hcurrent hlock hlog hmanifest hdot <;>
    simp_all
  rcases hlog with rfl | rfl <;> simp

namespace FilesInUse

/-- The files that are needed and that `GetChildren` lists read back to numbers that are kept. -/
structure ReadsBack (db : FilesInUse) (filenames : List FileName) : Prop where
  names : ∀ name ∈ filenames, '.' ∈ name ∨
    name ∈ ["CURRENT".toList, "LOCK".toList, "LOG".toList] ∨ "MANIFEST-".toList <+: name
  tables : ∀ n, db.Protected n → tableFileName n ∈ filenames →
    db.versions.Live (readNumber n) ∨ readNumber n ∈ db.pendingFile
  logs : ∀ n, n ≥ db.versions.logNumber → logFileName n ∈ filenames →
    readNumber n ≥ db.versions.logNumber

/-- `DeleteObsoleteFiles` is safe for exactly the directories in which the needed files read back to
numbers that are kept. -/
theorem deleteObsoleteFiles_safe_iff (db : FilesInUse) (filenames : List FileName) :
    (∃ deleted, db.deleteObsoleteFiles filenames = some deleted ∧ db.Safe deleted) ↔
      db.bgError ≠ .ok ∨ db.ReadsBack filenames := by
  rw [deleteObsoleteFiles]
  by_cases hbg : db.bgError ≠ .ok
  · rw [if_pos hbg]
    refine iff_of_true ⟨[], rfl, ?_, ?_, ?_⟩ (.inl hbg) <;> simp
  · rw [if_neg hbg, or_iff_right hbg]
    constructor
    · rintro ⟨deleted, hloop, hsafe⟩
      refine ⟨fun name hname => ?_, fun n hn hmem => ?_, fun n hn hmem => ?_⟩
      · refine parsefileName_ne_none_iff.mp ?_
        exact deleteLoop_isSome_iff.mp (Option.isSome_of_eq_some hloop) name hname
      · have hnot := hsafe.tables n hn
        rw [tableFileName_mem_deleteLoop hloop, VersionSet.mem_addLiveFiles] at hnot
        tauto
      · have hnot := hsafe.logs n hn
        rw [logFileName_mem_deleteLoop hloop] at hnot
        exact Nat.le_of_not_lt fun hlt => hnot ⟨hmem, hlt⟩
    · intro hreads
      have hsome : (db.deleteLoop (db.versions.addLiveFiles db.pendingFile) filenames).isSome :=
        deleteLoop_isSome_iff.mpr fun name hname =>
          parsefileName_ne_none_iff.mpr (hreads.names name hname)
      obtain ⟨deleted, hloop⟩ := Option.isSome_iff_exists.mp hsome
      refine ⟨deleted, hloop, fun n hn hdel => ?_, fun n hn hdel => ?_, ?_⟩
      · obtain ⟨hmem, hnot⟩ := (tableFileName_mem_deleteLoop hloop n).mp hdel
        exact hnot (VersionSet.mem_addLiveFiles.mpr (hreads.tables n hn hmem).symm)
      · obtain ⟨hmem, hlt⟩ := (logFileName_mem_deleteLoop hloop n).mp hdel
        exact absurd hlt (Nat.not_lt.mpr (hreads.logs n hn hmem))
      · exact descriptorFileName_not_mem_deleteLoop hloop _

end FilesInUse

/-- Opening a database and flushing three memtables: the logs 3, 4, 6 and 8, the tables 5, 7 and
9. -/
def threeFlushes : List ApplyStep :=
  let table (num : Nat) (user : UInt8) : FileMate :=
    ⟨num, 100, .new [user] num .value, .new [user] num .value⟩
  [⟨1, 0, ({} : VersionEdit).setLogNumber 3⟩,
    ⟨2, 1, (({} : VersionEdit).addFile 0 (table 5 97)).setLogNumber 4⟩,
    ⟨2, 2, (({} : VersionEdit).addFile 0 (table 7 98)).setLogNumber 6⟩,
    ⟨2, 3, (({} : VersionEdit).addFile 0 (table 9 99)).setLogNumber 8⟩]

/-- Behind the third flush the log in use is deleted: `000008.log` reads back to 0. -/
theorem not_deleteObsoleteFiles_safe :
    ∃ w disk, newDatabase.bind (applyAll threeFlushes) = some (w, disk) ∧
      ¬ ∃ deleted, ({ versions := w } : FilesInUse).deleteObsoleteFiles
          [currentFileName, descriptorFileName 2, tableFileName 5, tableFileName 7,
            logFileName 8, tableFileName 9] = some deleted ∧
        ({ versions := w } : FilesInUse).Safe deleted := by
  have hlog : (applyAll threeFlushes (newVersionSet, newDb)).map (·.1.logNumber) = some 8 := by rfl
  obtain ⟨⟨w, disk⟩, hrun, hw⟩ := Option.map_eq_some_iff.mp hlog
  refine ⟨w, disk, by rw [newDatabase_eq]; exact hrun, ?_⟩
  rintro ⟨deleted, hdeleted, hsafe⟩
  rw [FilesInUse.deleteObsoleteFiles, if_neg (not_not.mpr rfl)] at hdeleted
  refine hsafe.logs 8 (Nat.le_of_eq hw) ((FilesInUse.logFileName_mem_deleteLoop hdeleted 8).mpr ?_)
  refine ⟨by simp, ?_⟩
  show readNumber 8 < w.logNumber
  rw [show w.logNumber = 8 from hw]
  decide

end Yubindb
