import Yubindb.Db.Obsolete
import Yubindb.Db.Recovery
import Yubindb.Db.Write

/-!
# A session

The writer at the front of the queue and the background thread, step by step: `DBImpl::Write` and
`DBImpl::MakeRoomForwrite` on one side, `DBImpl::BackgroundCall`, `DBImpl::CompactMemTable` and
`DBImpl::WriteLevel0Table` on the other. A step is a section that is meant to run under the mutex, or
one between two of them.
-/

namespace Yubindb

/-- Where the writer at the front of the queue stands. -/
inductive WriterPc
  | idle
  /-- In the loop of `MakeRoomForwrite`. -/
  | room (fnt : Writer)
  /-- The sequence number is set and the mutex is released. -/
  | ready (sync : Bool) (updates : WriteBatch) (lastSequence : Nat)
  /-- `Appendrecord` and `Sync` have returned `statue`, on the log with this number. -/
  | logged (statue : State) (log : Nat) (updates : WriteBatch) (lastSequence : Nat)
  /-- Behind `InsertInto`. -/
  | inserted (lastSequence : Nat)
  | threw

/-- Where the background thread stands. -/
inductive BackgroundPc
  | idle
  /-- In `BuildTable`, for the table with this number. -/
  | building (num : Nat)
  /-- In the part of `LogAndApply` without the mutex. -/
  | applying (a : VersionSet.Applying)

/-- The state of a session. -/
structure Session where
  db : DBImpl
  disk : Disk
  /-- The pairs in the table files. -/
  tables : Nat → Option (List (InternalKey × Bytes)) := fun _ => none
  writer : WriterPc := .idle
  background : BackgroundPc := .idle
  /-- Ghosts: the entries of `mem_` and `imm_`, each with the log that received it. -/
  memLog : List (Nat × Entry) := []
  immLog : List (Nat × Entry) := []
  /-- A ghost: the entries appended so far, each with its log. -/
  received : List (Nat × Entry) := []

/-- The steps, with what the environment contributes to them. -/
inductive Action
  /-- `Write` is called, or a waiting writer reaches the front of the queue. -/
  | call (fnt : Writer)
  /-- A turn of the loop of `MakeRoomForwrite` and, behind its last one, `BuildBatchGroup`. -/
  | room (create : State) (followers : List Writer)
  /-- `Appendrecord`, and `Sync` when it is due. -/
  | append (appended synced : State)
  | insert
  /-- `SetLastSequence` and the end of `Write`. -/
  | publish
  /-- `CompactMemTable` starts, up to `BuildTable`. -/
  | build
  /-- `BuildTable` returns, and `LogAndApply` runs up to the manifest write. -/
  | built (result : State) (fileSize : ℕ+) (shuttingDown : Bool) (io : ManifestIo)
  /-- The manifest is written and `CompactMemTable` ends; `filenames` is what `GetChildren` lists. -/
  | applied (io : ManifestIo) (filenames : List FileName)

namespace Session

/-- The state behind a successful `Open`. -/
def opened (db : Opened) : Session where
  db := { versions := db.versions, mem := db.mem, logfilenum := db.logfilenum }
  disk := db.disk
  tables num := (db.tables.find? (·.file.num = num)).map Table.entries

/-- The entries of a batch, with the log that receives them. -/
def logEntries (log : Nat) (updates : WriteBatch) : List (Nat × Entry) :=
  updates.entries.map (log, ·)

/-! ## The writer -/

def roomStep (writeBufferSize : Nat) (create : State) (followers : List Writer) (st : Session) :
    Option Session :=
  match st.writer with
  | .room fnt =>
    match st.db.makeRoomTurn writeBufferSize fun _ => create with
    | (.leave _, db) =>
      let updates :=
        (buildBatchGroup fnt followers).setSequence (db.versions.lastSequence + 1)
      some { st with
        db, writer := .ready fnt.sync updates (addCount db.versions.lastSequence updates.count) }
    | (.delay, db) => some { st with db, writer := .threw }
    | (.wait, db) => some { st with db }
    | (.rotated, db) => some { st with db, immLog := st.memLog, memLog := [] }
    | (.abort, _) => none
  | _ => none

def appendStep (appended synced : State) (st : Session) : Option Session :=
  match st.writer with
  | .ready sync updates lastSequence =>
    let statue := if appended = .ok ∧ sync then synced else appended
    some { st with
      writer := .logged statue st.db.logfilenum updates lastSequence
      received := if appended = .ok then
        st.received ++ logEntries st.db.logfilenum updates else st.received }
  | _ => none

def insertStep (st : Session) : Option Session :=
  match st.writer with
  | .logged statue log updates lastSequence =>
    if statue = .ok then
      some { st with
        db := { st.db with mem := (updates.insertInto st.db.mem).2 }
        writer := .inserted lastSequence
        memLog := st.memLog ++ logEntries log updates }
    else some { st with writer := .inserted lastSequence }
  | _ => none

def publishStep (st : Session) : Option Session :=
  match st.writer with
  | .inserted lastSequence =>
    some { st with
      db := { st.db with versions := st.db.versions.setLastSequence lastSequence }
      writer := .idle }
  | _ => none

/-! ## The background thread -/

/-- `CompactMemTable` sets `bg_error` when it fails. -/
def failFlush (s : State) (st : Session) : Session :=
  { st with
    db := { st.db with bgError := if st.db.bgError = .ok then s else st.db.bgError }
    background := .idle }

def buildStep (st : Session) : Option Session :=
  match st.background with
  | .idle =>
    if st.db.bgError = .ok ∧ st.db.imm.isSome then
      let (num, versions) := st.db.versions.newFileNumber
      -- `TableFileName` asserts that the number is not 0
      if num = 0 then none
      else some { st with db := { st.db with versions }, background := .building num }
    else none
  | _ => none

def builtStep (result : State) (fileSize : ℕ+) (shuttingDown : Bool) (io : ManifestIo)
    (st : Session) : Option Session :=
  match st.background, st.db.imm with
  | .building num, some imm =>
    -- a table that could not be finished is deleted
    let contents := if result = .ok then some imm.flushlevel0fromskip else none
    let st := { st with tables := Function.update st.tables num contents }
    let s := if result = .ok ∧ shuttingDown then .ioError else result
    if s ≠ .ok then some (st.failFlush s)
    else
      let edit := (({} : VersionEdit).addFile 0 (imm.fileMate num fileSize)).setLogNumber
        st.db.logfilenum
      (st.db.versions.beginApply st.disk edit io).map fun (versions, disk, a) =>
        { st with db := { st.db with versions }, disk, background := .applying a }
  | _, _ => none

def appliedStep (io : ManifestIo) (filenames : List FileName) (st : Session) : Option Session :=
  match st.background with
  | .applying a =>
    let (s, disk) := st.db.versions.writeManifest st.disk a io
    let (versions, disk) := st.db.versions.finishApply disk a s
    let st := { st with db := { st.db with versions }, disk }
    if s ≠ .ok then some (st.failFlush s)
    else
      let files : FilesInUse := { bgError := st.db.bgError, versions }
      (files.deleteObsoleteFiles filenames).map fun deleted =>
        { st with
          db := { st.db with imm := none }
          immLog := []
          tables := fun num => if tableFileName num ∈ deleted then none else st.tables num
          background := .idle }
  | _ => none

/-- The step of an action, where it is possible. -/
def step (writeBufferSize : Nat) : Action → Session → Option Session
  | .call fnt, st =>
    match st.writer with
    | .idle => some { st with writer := .room fnt }
    | _ => none
  | .room create followers, st => st.roomStep writeBufferSize create followers
  | .append appended synced, st => st.appendStep appended synced
  | .insert, st => st.insertStep
  | .publish, st => st.publishStep
  | .build, st => st.buildStep
  | .built result fileSize shuttingDown io, st => st.builtStep result fileSize shuttingDown io
  | .applied io filenames, st => st.appliedStep io filenames

end Session
end Yubindb
