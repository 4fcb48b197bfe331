import Mathlib.Data.Finset.Basic
import Mathlib.Data.Fintype.Basic
import Mathlib.Data.Rat.Defs
import Mathlib.Order.Fin.Basic
import Mathlib.Algebra.Order.Ring.Rat
import Yubindb.Db.VersionEdit
import Yubindb.Theory.SortedSet
import Yubindb.Util.FileName

/-!
# The version set

`src/db/version_set.h`, `src/db/version_set.cpp`: the builder that applies edits to a version,
`VersionSet::Recover` and `VersionSet::LogAndApply`. A manifest is the list of the records appended to
it, and `recover` gets them as they are, as it does from a manifest whose records stay in their blocks.
-/

namespace Yubindb
open Std

/-! ## Versions and the builder -/

/-- `Version::files`. -/
abbrev LevelFiles := Level → List FileMate

/-- `Version`. -/
structure Version where
  files : LevelFiles := fun _ => []
  compactionScore : ℚ := -1
  compactionLevel : Int := -1
  deriving DecidableEq

/-- `Builder::BySmallestKey`, as the comparison of which it is the `<`. -/
def bySmallestKey : FileMate → FileMate → Ordering :=
  compareLex (fun f₁ f₂ => InternalKey.cmp f₁.smallest f₂.smallest) (compareOn FileMate.num)

/-- `Builder::FileSet`. -/
abbrev FileSet := SortedSet FileMate bySmallestKey

instance : TransCmp bySmallestKey :=
  have : TransCmp fun f₁ f₂ : FileMate => InternalKey.cmp f₁.smallest f₂.smallest :=
    { eq_swap := OrientedCmp.eq_swap
      isLE_trans := TransCmp.isLE_trans }
  inferInstanceAs (TransCmp (compareLex _ _))

/-- `Builder::LevelState`. -/
structure LevelState where
  deletedFiles : Finset Nat := ∅
  addedFiles : FileSet := .empty

/-- `VersionSet::Builder`: `base_` and `levels_`. -/
structure Builder where
  base : Version
  levels : Level → LevelState := fun _ => {}

namespace Builder

/-- One turn of the second loop of `Apply`. -/
def deleteFile (levels : Level → LevelState) (d : Level × Nat) : Level → LevelState :=
  Function.update levels d.1
    { levels d.1 with deletedFiles := insert d.2 (levels d.1).deletedFiles }

/-- One turn of the third loop of `Apply`. -/
def addFile (levels : Level → LevelState) (p : Level × FileMate) : Level → LevelState :=
  Function.update levels p.1
    { deletedFiles := (levels p.1).deletedFiles.erase p.2.num
      addedFiles := (levels p.1).addedFiles.insert p.2 }

/-- `Builder::Apply`, but for its first loop, which changes the version set. -/
def apply (b : Builder) (edit : VersionEdit) : Builder :=
  let levels := edit.deletedFiles.toList.foldl deleteFile b.levels
  { b with levels := edit.newFiles.foldl addFile levels }

/-- The first loop of `Builder::Apply`. -/
def applyCompactPointers (edit : VersionEdit) (compactPointer : Level → Bytes) : Level → Bytes :=
  edit.compactPointers.foldl (fun cp p => Function.update cp p.1 p.2.Key) compactPointer

/-- `MaybeAddFile`: whether the file is added. -/
def keepFile (deletedFiles : Finset Nat) (f : FileMate) : Bool := f.num ∉ deletedFiles

/-- The loops of `SaveTo` for one level: `base` is what `base_iter` has not reached, which
`upper_bound` splits in front of the first file above `added_file`. -/
def saveLevel (deletedFiles : Finset Nat) (base : List FileMate) : List FileMate → List FileMate
  | [] => base.filter (keepFile deletedFiles)
  | added :: rest =>
    let above f := bySmallestKey added f = .lt
    (base.takeWhile (¬ above ·)).filter (keepFile deletedFiles) ++
      [added].filter (keepFile deletedFiles) ++
      saveLevel deletedFiles (base.dropWhile (¬ above ·)) rest

/-- The files of a level do not overlap. -/
def NoOverlap : List FileMate → Prop :=
  List.IsChain fun f₁ f₂ => InternalKey.cmp f₁.largest f₂.smallest = .lt

instance (fs : List FileMate) : Decidable (NoOverlap fs) := inferInstanceAs (Decidable (List.IsChain _ _))

/-- `SaveTo`, onto a new version; nothing when it aborts on an overlap. -/
def saveTo (b : Builder) : Option Version :=
  let files level :=
    saveLevel (b.levels level).deletedFiles (b.base.files level) (b.levels level).addedFiles.elems
  if ∀ level : Level, 0 < level → NoOverlap (files level) then some { files } else none

end Builder

/-! ## What the builder saves -/

/-- The edit adds a file with this number to the level. -/
def VersionEdit.Adds (edit : VersionEdit) (level : Level) (n : Nat) : Prop :=
  ∃ f, (level, f) ∈ edit.newFiles ∧ f.num = n

/-- The edit deletes the file with this number from the level. -/
def VersionEdit.Deletes (edit : VersionEdit) (level : Level) (n : Nat) : Prop :=
  (level, n) ∈ edit.deletedFiles

/-- The level of the version has a file with this number. -/
def Version.Has (v : Version) (level : Level) (n : Nat) : Prop := ∃ f ∈ v.files level, f.num = n

namespace Builder
variable {level : Level} {n : Nat}

theorem mem_deletedFiles_deleteFile {levels : Level → LevelState} {ds : List (Level × Nat)} :
    n ∈ (ds.foldl deleteFile levels level).deletedFiles ↔
      n ∈ (levels level).deletedFiles ∨ (level, n) ∈ ds := by
  induction ds generalizing levels with
  | nil => simp
  | cons d ds ih =>
    obtain ⟨l, m⟩ := d
    rw [List.foldl_cons, ih]
    rcases eq_or_ne level l with rfl | hne
    · simp [deleteFile, or_assoc, or_comm (a := n = m)]
    · simp [deleteFile, hne]

theorem addedFiles_deleteFile {levels : Level → LevelState} {ds : List (Level × Nat)} :
    (ds.foldl deleteFile levels level).addedFiles = (levels level).addedFiles := by
  induction ds generalizing levels with
  | nil => rfl
  | cons d ds ih =>
    obtain ⟨l, m⟩ := d
    rw [List.foldl_cons, ih]
    rcases eq_or_ne level l with rfl | hne
    · simp [deleteFile]
    · simp [deleteFile, hne]

theorem mem_deletedFiles_addFile {levels : Level → LevelState} {fs : List (Level × FileMate)} :
    n ∈ (fs.foldl addFile levels level).deletedFiles ↔
      n ∈ (levels level).deletedFiles ∧ ¬ ∃ f, (level, f) ∈ fs ∧ f.num = n := by
  induction fs generalizing levels with
  | nil => simp
  | cons p fs ih =>
    obtain ⟨l, g⟩ := p
    rw [List.foldl_cons, ih]
    rcases eq_or_ne level l with rfl | hne
    · simp only [addFile, Function.update_self, Finset.mem_erase, List.mem_cons, Prod.mk.injEq,
        true_and, or_and_right, exists_or, exists_eq_left, not_or]
      exact ⟨fun ⟨⟨hg, hn⟩, hfs⟩ => ⟨hn, Ne.symm hg, hfs⟩,
        fun ⟨hn, hg, hfs⟩ => ⟨⟨Ne.symm hg, hn⟩, hfs⟩⟩
    · simp [addFile, hne]

/-- `std::set::insert` leaves out a file only when the set has one with its number. -/
theorem exists_mem_addedFiles_addFile {levels : Level → LevelState}
    {fs : List (Level × FileMate)} :
    (∃ f ∈ (fs.foldl addFile levels level).addedFiles, f.num = n) ↔
      (∃ f ∈ (levels level).addedFiles, f.num = n) ∨ ∃ f, (level, f) ∈ fs ∧ f.num = n := by
  have hnum (f g : FileMate) (h : bySmallestKey f g = .eq) : f.num = n ↔ g.num = n := by
    have heq : f.num = g.num := LawfulEqCmp.eq_of_compare (Ordering.then_eq_eq.mp h).2
    rw [heq]
  induction fs generalizing levels with
  | nil => simp
  | cons p fs ih =>
    obtain ⟨l, g⟩ := p
    rw [List.foldl_cons]
    refine ih.trans ?_
    rcases eq_or_ne level l with rfl | hne
    · simp only [addFile, Function.update_self, List.mem_cons, Prod.mk.injEq, true_and,
        or_and_right, exists_or, exists_eq_left]
      have hset : (∃ f ∈ (levels level).addedFiles.insert g, f.num = n) ↔
          g.num = n ∨ ∃ f ∈ (levels level).addedFiles, f.num = n :=
        SortedSet.exists_mem_insert_iff (hnum g)
      rw [hset, or_assoc, or_left_comm]
    · simp [addFile, hne]

theorem mem_saveLevel {deleted : Finset Nat} {base added : List FileMate} {f : FileMate} :
    f ∈ saveLevel deleted base added ↔ f.num ∉ deleted ∧ (f ∈ base ∨ f ∈ added) := by
  have hkeep : keepFile deleted f = true ↔ f.num ∉ deleted := decide_eq_true_iff
  induction added generalizing base with
  | nil => simp [saveLevel, hkeep, and_comm]
  | cons a as ih =>
    have hsplit : f ∈ base ↔ f ∈ base.takeWhile (¬ bySmallestKey a · = .lt) ∨
        f ∈ base.dropWhile (¬ bySmallestKey a · = .lt) := by
      rw [← List.mem_append, List.takeWhile_append_dropWhile]
    simp only [saveLevel, List.mem_append, List.mem_filter, hkeep, ih, List.mem_cons, hsplit]
    tauto

theorem saveTo_files {b : Builder} {v : Version} (h : b.saveTo = some v) (level : Level) :
    v.files level = saveLevel (b.levels level).deletedFiles (b.base.files level)
      (b.levels level).addedFiles.elems := by
  rw [saveTo] at h
  split at h
  · cases h
    rfl
  · cases h

theorem mem_deletedFiles_apply {b : Builder} {edit : VersionEdit} :
    n ∈ ((b.apply edit).levels level).deletedFiles ↔
      (n ∈ (b.levels level).deletedFiles ∨ edit.Deletes level n) ∧ ¬ edit.Adds level n := by
  rw [apply, mem_deletedFiles_addFile, mem_deletedFiles_deleteFile, ExtTreeSet.mem_toList]
  rfl

theorem exists_mem_addedFiles_apply {b : Builder} {edit : VersionEdit} :
    (∃ f ∈ ((b.apply edit).levels level).addedFiles, f.num = n) ↔
      (∃ f ∈ (b.levels level).addedFiles, f.num = n) ∨ edit.Adds level n := by
  rw [apply, exists_mem_addedFiles_addFile, addedFiles_deleteFile]
  rfl

/-- The numbers in a version made by one edit. -/
theorem has_saveTo_apply {base v : Version} {edit : VersionEdit}
    (h : (({ base } : Builder).apply edit).saveTo = some v) :
    v.Has level n ↔ edit.Adds level n ∨ base.Has level n ∧ ¬ edit.Deletes level n := by
  have hdeleted := @mem_deletedFiles_apply level n { base } edit
  have hadded := @exists_mem_addedFiles_apply level n { base } edit
  simp only [Finset.notMem_empty, false_or] at hdeleted
  have hnone : ¬ ∃ f ∈ (({ base } : Builder).levels level).addedFiles, f.num = n :=
    fun ⟨f, hf, _⟩ => SortedSet.not_mem_empty f hf
  rw [or_iff_right hnone] at hadded
  rw [Version.Has, saveTo_files h]
  constructor
  · rintro ⟨f, hf, rfl⟩
    obtain ⟨hkeep, hbase | hset⟩ := mem_saveLevel.mp hf
    · by_cases hadd : edit.Adds level f.num
      · exact .inl hadd
      · exact .inr ⟨⟨f, hbase, rfl⟩, fun hdel => hkeep (hdeleted.mpr ⟨hdel, hadd⟩)⟩
    · exact .inl (hadded.mp ⟨f, hset, rfl⟩)
  · rintro (hadd | ⟨⟨f, hf, rfl⟩, hdel⟩)
    · obtain ⟨f, hf, rfl⟩ := hadded.mpr hadd
      exact ⟨f, mem_saveLevel.mpr ⟨fun h => (hdeleted.mp h).2 hadd, .inr hf⟩, rfl⟩
    · exact ⟨f, mem_saveLevel.mpr ⟨fun h => hdel (hdeleted.mp h).1, .inl hf⟩, rfl⟩

end Builder

/-! ## The version set -/

/-- What the directory holds of a version set: the manifests by the records appended to them. -/
structure Disk where
  current : Option FileName := none
  manifests : FileName → Option (List Bytes) := fun _ => none

namespace Disk

/-- `Appendrecord` on a manifest; an empty record has no bytes. -/
def appendRecord (disk : Disk) (name : FileName) (record : Bytes) : Disk :=
  { disk with
    manifests := Function.update disk.manifests name
      ((disk.manifests name).map (· ++ if record = [] then [] else [record])) }

/-- `NewWritableFile`. -/
def create (disk : Disk) (name : FileName) : Disk :=
  { disk with manifests := Function.update disk.manifests name (some []) }

/-- `DeleteFile`. -/
def delete (disk : Disk) (name : FileName) : Disk :=
  { disk with manifests := Function.update disk.manifests name none }

/-- `SetCurrentFile`. -/
def setCurrentFile (disk : Disk) (number : Nat) : Disk :=
  { disk with current := some (descriptorFileName number ++ ['\n']) }

end Disk

/-- `VersionSet`. `versionlist` keeps the files of the versions: a score is read through `nowversion`
only. -/
structure VersionSet where
  nextFileNumber : Nat := 2
  manifestFileNumber : Nat := 0
  lastSequence : Nat := 0
  logNumber : Nat := 0
  /-- The name of the manifest that `descriptor_log` writes. -/
  descriptorLog : Option FileName := none
  versionlist : List LevelFiles := [fun _ => []]
  nowversion : Version := {}
  compactPointer : Level → Bytes := fun _ => []

/-- The states that the file operations of `LogAndApply` return. -/
structure ManifestIo where
  newWritableFile : State := .ok
  appendSnapshot : State := .ok
  appendEdit : State := .ok
  sync : State := .ok
  setCurrentFile : State := .ok

namespace VersionSet

def setLastSequence (vs : VersionSet) (seq : Nat) : VersionSet := { vs with lastSequence := seq }

/-- `NewFileNumber`. -/
def newFileNumber (vs : VersionSet) : Nat × VersionSet :=
  (vs.nextFileNumber, { vs with nextFileNumber := (vs.nextFileNumber + 1) % 2 ^ 64 })

def numLevelFiles (vs : VersionSet) (level : Level) : Nat := (vs.nowversion.files level).length

/-- `AddLiveFiles`. -/
def addLiveFiles (vs : VersionSet) (live : Finset Nat) : Finset Nat :=
  vs.versionlist.foldl
    (fun live files => (List.finRange kNumLevels).foldl
      (fun live level => (files level).foldl (fun live f => insert f.num live) live) live) live

/-- `TotalFileSize`. -/
def totalFileSize (files : List FileMate) : Nat := (files.map FileMate.fileSize).sum

/-- `MaxBytesForLevel`. -/
def maxBytesForLevel (level : Nat) : ℚ := 10 * 1048576 * 10 ^ (level - 1)

/-- One turn of the loop of `Finalize`; the score of level 0 is not compared. -/
def finalizeLevel (v : Version) (best : Int × ℚ) (i : Level) : Int × ℚ :=
  if i = 0 then best
  else
    let score := totalFileSize (v.files i) / maxBytesForLevel i
    if score > best.2 then (i, score) else best

/-- `Finalize`: the scores of `v` go to `nowversion`. -/
def finalize (vs : VersionSet) (v : Version) : VersionSet :=
  let best := ((List.finRange kNumLevels).take (kNumLevels - 1)).foldl (finalizeLevel v) (-1, -1)
  { vs with nowversion := { vs.nowversion with
      compactionLevel := best.1, compactionScore := best.2 } }

/-- `NeedsCompaction`. -/
def needsCompaction (vs : VersionSet) : Bool := vs.nowversion.compactionScore ≥ 1

/-- `WriteSnapshot`: its edit. -/
def snapshot (vs : VersionSet) : VersionEdit :=
  let edit := (List.finRange kNumLevels).foldl (fun edit i =>
    match InternalKey.decodeFrom (vs.compactPointer i) with
    | some key => edit.setCompactPointer i key
    | none => edit) {}
  (List.finRange kNumLevels).foldl (fun edit level =>
    (vs.nowversion.files level).foldl (fun edit f => edit.addFile level f) edit) edit

/-! ### `Recover` -/

/-- The variables of `Recover` while it reads the manifest. -/
structure Replay where
  s : State := .ok
  builder : Builder
  compactPointer : Level → Bytes
  logNumber : Option Nat := none
  nextFile : Option Nat := none
  lastSequence : Option Nat := none

/-- The body of the loop of `Recover`. -/
def Replay.record (r : Replay) (record : Bytes) : Replay :=
  let (s, edit) := VersionEdit.decodeFrom record
  { s
    builder := if s = .ok then r.builder.apply edit else r.builder
    compactPointer :=
      if s = .ok then Builder.applyCompactPointers edit r.compactPointer else r.compactPointer
    logNumber := edit.logNumber.or r.logNumber
    nextFile := edit.nextFileNumber.or r.nextFile
    lastSequence := edit.lastSequence.or r.lastSequence }

/-- The loop of `Recover`. -/
def Replay.records (r : Replay) : List Bytes → Replay
  | [] => r
  | record :: rest => if r.s = .ok then (r.record record).records rest else r

/-- The adjustment of `next_file_number` behind the loop of `Recover`. -/
def raiseNextFile (vs : VersionSet) : VersionSet :=
  { vs with nextFileNumber :=
      if vs.nextFileNumber ≤ vs.logNumber then vs.logNumber + 1 else vs.nextFileNumber }

/-- What `Recover` installs; `v` joins the list, but `nowversion` stays what it was. -/
def installRecovered (vs : VersionSet) (v : Version) (nextFile logNumber lastSequence : Nat) :
    VersionSet :=
  { vs.finalize v with
    versionlist := v.files :: vs.versionlist
    manifestFileNumber := nextFile
    nextFileNumber := (nextFile + 1) % 2 ^ 64
    lastSequence, logNumber }

/-- The variables of `Recover` when it has read the records. -/
def replay (vs : VersionSet) (records : List Bytes) : Replay :=
  Replay.records { builder := { base := vs.nowversion }, compactPointer := vs.compactPointer } records

/-- The part of `Recover` behind the loop, which has changed `compact_pointer` itself. -/
def finishRecover (vs : VersionSet) (r : Replay) : Option (State × Bool × VersionSet) :=
  let vs := { vs with compactPointer := r.compactPointer }
  if r.s = .ok then
    match r.nextFile, r.logNumber, r.lastSequence with
    | some nextFile, some logNumber, some lastSequence =>
      r.builder.saveTo.map fun v =>
        (.ok, true, vs.raiseNextFile.installRecovered v nextFile logNumber lastSequence)
    | _, _, _ => some (.corruption, false, vs.raiseNextFile)
  else some (r.s, false, vs)

/-- `Recover`: the state that it returns, `*save_manifest` and the version set; nothing when `SaveTo`
aborts. -/
def recover (vs : VersionSet) (disk : Disk) : Option (State × Bool × VersionSet) :=
  match disk.current with
  | none => some (.ioError, false, vs)
  | some current =>
    if current.getLast? ≠ some '\n' then some (.corruption, false, vs)
    else
      match disk.manifests current.dropLast with
      | none => some (.ioError, false, vs)
      | some records => finishRecover vs (vs.replay records)

/-! ### `LogAndApply` -/

/-- What `LogAndApply` keeps while it has released the mutex. -/
structure Applying where
  edit : VersionEdit
  v : Version
  /-- `new_mainifset_file`. -/
  newManifest : Option FileName
  s : State

/-- What `LogAndApply` sets in the edit. -/
def completeEdit (vs : VersionSet) (edit : VersionEdit) : VersionEdit :=
  { edit with
    logNumber := edit.logNumber.or (some vs.logNumber)
    nextFileNumber := some vs.nextFileNumber
    lastSequence := some vs.lastSequence }

/-- The builder in `LogAndApply`, and `Finalize`. -/
def stage (vs : VersionSet) (edit : VersionEdit) : Option (VersionSet × Version) :=
  (({ base := vs.nowversion } : Builder).apply edit).saveTo.map fun v =>
    ({ vs with compactPointer :=
        Builder.applyCompactPointers edit vs.compactPointer }.finalize v, v)

/-- The branch of `LogAndApply` for `descriptor_log == nullptr`: `new_mainifset_file` and `s`. -/
def openManifest (vs : VersionSet) (disk : Disk) (io : ManifestIo) :
    VersionSet × Disk × Option FileName × State :=
  match vs.descriptorLog with
  | some _ => (vs, disk, none, .ok)
  | none =>
    let name := descriptorFileName vs.manifestFileNumber
    if io.newWritableFile ≠ .ok then (vs, disk, some name, io.newWritableFile)
    else
      let vs := { vs with descriptorLog := some name }
      let disk := disk.create name
      if io.appendSnapshot ≠ .ok then (vs, disk, some name, io.appendSnapshot)
      else (vs, disk.appendRecord name vs.snapshot.encodeTo, some name, .ok)

/-- `LogAndApply` up to the point where it releases the mutex; nothing when an assertion fails or
`SaveTo` aborts. -/
def beginApply (vs : VersionSet) (disk : Disk) (edit : VersionEdit) (io : ManifestIo) :
    Option (VersionSet × Disk × Applying) :=
  if ∀ n ∈ edit.logNumber, n ≥ vs.logNumber ∧ n < vs.nextFileNumber then
    let edit := vs.completeEdit edit
    (vs.stage edit).map fun (vs, v) =>
      let (vs, disk, newManifest, s) := vs.openManifest disk io
      (vs, disk, ⟨edit, v, newManifest, s⟩)
  else none

/-- The part of `LogAndApply` without the mutex. -/
def writeManifest (vs : VersionSet) (disk : Disk) (a : Applying) (io : ManifestIo) : State × Disk :=
  if a.s ≠ .ok then (a.s, disk)
  else if io.appendEdit ≠ .ok then (io.appendEdit, disk)
  else
    let disk := match vs.descriptorLog with
      | some name => disk.appendRecord name a.edit.encodeTo
      | none => disk
    if io.sync ≠ .ok then (io.sync, disk)
    else if a.newManifest = none then (.ok, disk)
    else if io.setCurrentFile ≠ .ok then (io.setCurrentFile, disk)
    else (.ok, disk.setCurrentFile vs.manifestFileNumber)

/-- The part of `LogAndApply` behind the point where it takes the mutex again. -/
def finishApply (vs : VersionSet) (disk : Disk) (a : Applying) (s : State) : VersionSet × Disk :=
  if s = .ok then
    ({ vs with
      nowversion := a.v
      versionlist := a.v.files :: vs.versionlist
      logNumber := a.edit.logNumber.getD vs.logNumber }, disk)
  else
    ({ vs with descriptorLog := none }, match a.newManifest with
      | some name => disk.delete name
      | none => disk)

/-- `LogAndApply`. -/
def logAndApply (vs : VersionSet) (disk : Disk) (edit : VersionEdit) (io : ManifestIo) :
    Option (State × VersionSet × Disk) :=
  (vs.beginApply disk edit io).map fun (vs, disk, a) =>
    let (s, disk) := vs.writeManifest disk a io
    (s, vs.finishApply disk a s)

end VersionSet

/-! ## A new database -/

/-- `DBImpl::NewDB`: its edit. -/
def newDbEdit : VersionEdit := ((({} : VersionEdit).setLogNumber 0).setNextFile 2).setLastSequence 0

/-- `DBImpl::NewDB`, without a failure. -/
def Disk.newDb (disk : Disk) : Disk :=
  ((disk.create (descriptorFileName 1)).appendRecord (descriptorFileName 1)
    newDbEdit.encodeTo).setCurrentFile 1

/-- The files of a database that has just been created. -/
def newDb : Disk := ({} : Disk).newDb

end Yubindb
