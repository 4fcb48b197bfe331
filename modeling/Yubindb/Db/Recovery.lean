import Mathlib.Data.PNat.Basic
import Yubindb.Db.Reader
import Yubindb.Db.VersionSet
import Yubindb.Db.WriteBatch

/-!
# Opening a database

`DBImpl::Recover`, `DBImpl::RecoverLogFile` and `DBImpl::Open` in `src/db/db.cpp`.
-/

namespace Yubindb

/-- The database directory. -/
structure Dir where
  disk : Disk := {}
  /-- What `GetChildren` lists. -/
  filenames : List FileName := []
  logs : FileName → Option Bytes := fun _ => none

/-- The states that the file operations of `Open` return, and the sizes of the tables that
`BuildTable` writes: `Finish` writes at least a footer. -/
structure OpenIo where
  lockFile : State := .ok
  newDb : State := .ok
  getChildren : State := .ok
  buildTable : Nat → State := fun _ => .ok
  tableSize : Nat → ℕ+ := fun _ => 1
  newLog : State := .ok
  manifest : ManifestIo := {}

/-- A table file. -/
structure Table where
  file : FileMate
  entries : List (InternalKey × Bytes)

/-- The variables of `Recover` that `RecoverLogFile` changes, and the tables written. -/
structure LogReplay where
  versions : VersionSet
  edit : VersionEdit := {}
  saveManifest : Bool := false
  maxSequence : Nat := 0
  tables : List Table := []

/-- The description that `Flushlevel0fromskip` makes of the table. -/
def Memtable.fileMate (mem : Memtable) (num size : Nat) : FileMate :=
  let key (p : Option Node) : InternalKey := (p.map Node.key).getD ⟨[]⟩
  ⟨num, size, key mem.ordered.head?, key mem.ordered.getLast?⟩

namespace LogReplay

/-- `WriteLevel0Table`, with `BuildTable`. -/
def writeLevel0Table (io : OpenIo) (r : LogReplay) (mem : Memtable) : State × LogReplay :=
  let (num, versions) := r.versions.newFileNumber
  if io.buildTable num ≠ .ok then (io.buildTable num, { r with versions })
  else
    let file := mem.fileMate num (io.tableSize num)
    (.ok, { r with
      versions
      edit := if file.fileSize > 0 then r.edit.addFile 0 file else r.edit
      tables := r.tables ++ [⟨file, mem.flushlevel0fromskip⟩] })

/-- The body of the loop of `RecoverLogFile` for a record of at least 12 bytes. -/
def replayRecord (writeBufferSize : Nat) (io : OpenIo) (record : Bytes)
    (mem : Option Memtable) (r : LogReplay) : State × Option Memtable × LogReplay :=
  let batch := WriteBatch.setContents record
  let (s, mem) := batch.insertInto (mem.getD {})
  if s ≠ .ok then (s, some mem, r)
  else
    let lastSeq := batch.lastSequence
    let r := { r with maxSequence := if lastSeq > r.maxSequence then lastSeq else r.maxSequence }
    if mem.approximateMemoryUsage > writeBufferSize then
      let (s, r) := { r with saveManifest := true }.writeLevel0Table io mem
      (s, none, r)
    else (.ok, some mem, r)

/-- The loop of `RecoverLogFile`. What is left in `mem` behind it is dropped. -/
def recoverLoop (C : Crc32c) (writeBufferSize : Nat) (io : OpenIo) (reader : Reader)
    (mem : Option Memtable) (r : LogReplay) : Option (State × LogReplay) :=
  match reader.readRecord C with
  | none => none
  | some (false, _, _) => some (.ok, r)
  | some (true, record, reader) =>
    if record.length < 12 then r |>.recoverLoop C writeBufferSize io reader mem
    else
      let (s, mem, r) := r.replayRecord writeBufferSize io record mem
      if s ≠ .ok then some (s, r) else r |>.recoverLoop C writeBufferSize io reader mem
partial_fixpoint

/-- `RecoverLogFile`; `log_num` is a `uint32_t`, and `LogFileName` asserts that it is not 0. -/
def recoverLogFile (C : Crc32c) (writeBufferSize : Nat) (io : OpenIo) (dir : Dir) (number : Nat)
    (r : LogReplay) : Option (State × LogReplay) :=
  let logNum := number % 2 ^ 32
  if logNum = 0 then none
  else
    match dir.logs (logFileName logNum) with
    | none => some (.ioError, r)
    | some file => recoverLoop C writeBufferSize io (.new ⟨file⟩ true 0) none r

/-- The last loop of `Recover`. -/
def recoverLogs (C : Crc32c) (writeBufferSize : Nat) (io : OpenIo) (dir : Dir) :
    List Nat → LogReplay → Option (State × LogReplay)
  | [], r => some (.ok, r)
  | number :: logs, r => do
    let (s, r) ← r.recoverLogFile C writeBufferSize io dir number
    if s ≠ .ok then some (s, r) else recoverLogs C writeBufferSize io dir logs r

end LogReplay

/-- The loop of `Recover` over the files: `expected` and `logs`. -/
def scanFiles (minLog : Nat) : List FileName → Finset Nat → Option (Finset Nat × List Nat)
  | [], expected => some (expected, [])
  | name :: filenames, expected => do
    match ← parsefileName name with
    | some (number, type) =>
      let (expected, logs) ← scanFiles minLog filenames (expected.erase number)
      return (expected, if type = .kLogFile ∧ number ≥ minLog then number :: logs else logs)
    | none => scanFiles minLog filenames expected

namespace Dir

/-- The directory behind the check for `CURRENT` in `Recover`. -/
def withCurrent (dir : Dir) : Dir :=
  if dir.disk.current.isSome then dir
  else { dir with disk := dir.disk.newDb }

/-- `DBImpl::Recover`. -/
def recover (C : Crc32c) (writeBufferSize : Nat) (io : OpenIo) (dir : Dir) :
    Option (State × LogReplay) :=
  if io.lockFile ≠ .ok then some (io.lockFile, { versions := {} })
  else if dir.disk.current.isNone ∧ io.newDb ≠ .ok then some (io.newDb, { versions := {} })
  else do
    let (s, saveManifest, versions) ← VersionSet.recover {} dir.withCurrent.disk
    let r : LogReplay := { versions, saveManifest }
    if s ≠ .ok then some (s, r)
    else if io.getChildren ≠ .ok then some (io.getChildren, r)
    else
      let (expected, logs) ← scanFiles versions.logNumber dir.filenames (versions.addLiveFiles ∅)
      if expected.Nonempty then some (.corruption, r)
      else r.recoverLogs C writeBufferSize io dir (logs.mergeSort (· ≤ ·))

end Dir

/-- What `Open` leaves of the database, and the edit that it hands to `LogAndApply`. -/
structure Opened where
  versions : VersionSet
  disk : Disk
  mem : Memtable
  logfilenum : Nat
  edit : VersionEdit
  tables : List Table

/-- `DBImpl::Open`: the state and, when it is `Ok`, the database. -/
def Dir.open (C : Crc32c) (writeBufferSize : Nat) (io : OpenIo) (dir : Dir) :
    Option (State × Option Opened) := do
  let (s, r) ← dir.recover C writeBufferSize io
  if s ≠ .ok then return (s, none)
  else
    let (newLogNumber, versions) := r.versions.newFileNumber
    -- `LogFileName` asserts that the number is not 0
    if newLogNumber = 0 then none
    else if io.newLog ≠ .ok then return (io.newLog, none)
    else
      let opened : Opened := ⟨versions, dir.withCurrent.disk, {}, newLogNumber,
        r.edit.setLogNumber newLogNumber, r.tables⟩
      if r.saveManifest then
        let (s, versions, disk) ← versions.logAndApply opened.disk opened.edit io.manifest
        if s ≠ .ok then return (s, none) else return (.ok, some { opened with versions, disk })
      else return (.ok, some opened)

/-! ## A success -/

namespace Dir
variable {C : Crc32c} {limit : Nat} {io : OpenIo} {dir : Dir}

/-- What a successful `Recover` has gone through: the manifest, the directory and the logs. -/
theorem recover_stages {r : LogReplay} (h : dir.recover C limit io = some (.ok, r)) :
    ∃ save vs expected numbers,
      VersionSet.recover {} dir.withCurrent.disk = some (.ok, save, vs) ∧
      scanFiles vs.logNumber dir.filenames (vs.addLiveFiles ∅) = some (expected, numbers) ∧
      LogReplay.recoverLogs C limit io dir (numbers.mergeSort (· ≤ ·))
        { versions := vs, saveManifest := save } = some (.ok, r) := by
  rw [recover] at h
  split at h
  · next hs => exact absurd (congrArg Prod.fst (Option.some.inj h)) hs
  split at h
  · next hs => exact absurd (congrArg Prod.fst (Option.some.inj h)) hs.2
  obtain ⟨⟨s, save, vs⟩, hrecover, h⟩ := Option.bind_eq_some_iff.mp h
  dsimp only at h
  split at h
  · next hs => exact absurd (congrArg Prod.fst (Option.some.inj h)) hs
  next hs =>
  cases not_not.mp hs
  split at h
  · next hs => exact absurd (congrArg Prod.fst (Option.some.inj h)) hs
  obtain ⟨⟨expected, numbers⟩, hscan, h⟩ := Option.bind_eq_some_iff.mp h
  dsimp only at h
  split at h
  · cases h
  exact ⟨save, vs, expected, numbers, hrecover, hscan, h⟩

/-- A successful `Open` has taken a number behind a successful `Recover`, and has applied the edit if
it had to. -/
theorem open_stages {db : Opened} (h : dir.open C limit io = some (.ok, some db)) :
    ∃ r versions disk, dir.recover C limit io = some (.ok, r) ∧
      db = ⟨versions, disk, {}, r.versions.newFileNumber.1,
        r.edit.setLogNumber r.versions.newFileNumber.1, r.tables⟩ ∧
      if r.saveManifest then
        r.versions.newFileNumber.2.logAndApply dir.withCurrent.disk
          (r.edit.setLogNumber r.versions.newFileNumber.1) io.manifest = some (.ok, versions, disk)
      else versions = r.versions.newFileNumber.2 ∧ disk = dir.withCurrent.disk := by
  obtain ⟨⟨s, r⟩, hrecover, h⟩ := Option.bind_eq_some_iff.mp h
  dsimp only at h
  split at h
  · cases h
  next hs =>
  cases not_not.mp hs
  split at h
  · cases h
  split at h
  · exact absurd (congrArg Prod.snd (Option.some.inj h)) (Option.some_ne_none _).symm
  split at h
  · next hsave =>
    obtain ⟨⟨s, versions, disk⟩, happly, h⟩ := Option.bind_eq_some_iff.mp h
    dsimp only at h
    split at h
    · cases h
    · next hs =>
      cases not_not.mp hs
      cases h
      refine ⟨r, versions, disk, hrecover, rfl, ?_⟩
      rw [if_pos hsave]
      exact happly
  · next hsave =>
    cases h
    refine ⟨r, _, _, hrecover, rfl, ?_⟩
    rw [if_neg hsave]
    exact ⟨rfl, rfl⟩

end Dir
end Yubindb
