import Yubindb.Db.LogReplay

/-!
# What a reopened database keeps

What `Open` keeps of the entries in the logs that it replays, and of their sequence numbers.
-/

namespace Yubindb

/-- The node is in `mem_`, or in a table that the edit adds to level 0. -/
def Opened.Retains (db : Opened) (n : Node) : Prop :=
  n ∈ db.mem.nodes ∨
    ∃ t ∈ db.tables, (0, t.file) ∈ db.edit.newFiles ∧ (n.key, n.val) ∈ t.entries

/-- What a successful `Open` has recovered: the version set of the manifest, the logs, and the tables
made from them. -/
structure Dir.Recovered (C : Crc32c) (writeBufferSize : Nat) (dir : Dir) (db : Opened)
    (vs : VersionSet) (logs : List (List WriteBatch)) : Prop where
  manifest : ∃ save, VersionSet.recover {} dir.withCurrent.disk = some (.ok, save, vs)
  replayedLogs : dir.replayedLogs C vs = some logs
  lastSequence : db.versions.lastSequence = vs.lastSequence
  retains : ∀ n, db.Retains n ↔ ∃ e ∈ flushed writeBufferSize logs, e.storedNode = n

namespace Dir
variable {C : Crc32c} {limit : Nat} {io : OpenIo} {dir : Dir} {db : Opened}

theorem recover_ok {r : LogReplay} (h : dir.recover C limit io = some (.ok, r)) :
    ∃ save vs logs, VersionSet.recover {} dir.withCurrent.disk = some (.ok, save, vs) ∧
      dir.replayedLogs C vs = some logs ∧ r.Keeps vs (flushed limit logs) := by
  obtain ⟨save, vs, expected, numbers, hrecover, hscan, h⟩ := recover_stages h
  have hnew : LogReplay.Keeps vs [] { versions := vs, saveManifest := save } := by
    refine ⟨rfl, fun t ht => ?_, fun n => ⟨?_, ?_⟩⟩
    · cases ht
    · rintro ⟨t, ht, -⟩
      cases ht
    · rintro ⟨e, he, -⟩
      cases he
  obtain ⟨logs, hlogs, hkeeps⟩ := LogReplay.recoverLogs_keeps hnew h
  refine ⟨save, vs, logs, hrecover, ?_, hkeeps⟩
  rw [replayedLogs, hscan]
  exact hlogs

/-- The tables of a replay, with the numbers that `Open` gives out behind it. -/
theorem retains_of_keeps {vs versions : VersionSet} {disk : Disk} {es : List Entry} {r : LogReplay}
    {num : Nat} (h : r.Keeps vs es) (n : Node) :
    (⟨versions, disk, {}, num, r.edit.setLogNumber num, r.tables⟩ : Opened).Retains n ↔
      ∃ e ∈ es, e.storedNode = n := by
  rw [← h.holds n, Opened.Retains, or_iff_right List.not_mem_nil]
  constructor
  · rintro ⟨t, ht, -, hn⟩
    exact ⟨t, ht, hn⟩
  · rintro ⟨t, ht, hn⟩
    exact ⟨t, ht, h.added t ht, hn⟩

theorem open_recovered (h : dir.open C limit io = some (.ok, some db)) :
    ∃ vs logs, dir.Recovered C limit db vs logs := by
  obtain ⟨r, versions, disk, hrecover, rfl, happly⟩ := open_stages h
  obtain ⟨save, vs, logs, hmanifest, hlogs, hkeeps⟩ := recover_ok hrecover
  have hseq : versions.lastSequence = r.versions.lastSequence := by
    split at happly
    · exact (VersionSet.logAndApply_installs happly).lastSequence
    · rw [happly.1]
      rfl
  exact ⟨vs, logs, ⟨save, hmanifest⟩, hlogs, hseq.trans hkeeps.lastSequence, retains_of_keeps hkeeps⟩

end Dir

/-! ## A session with one `Put`

Opening a new database, one `Put` with the default `write_buffer_size`, and a crash. -/

/-- The `Open` that creates the database makes `000003.log`. -/
def sessionOpen : ApplyStep := ⟨1, 0, ({} : VersionEdit).setLogNumber 3⟩

def firstPut : WriteBatch := (WriteBatch.new.put [107] [118]).setSequence 1

def firstEntry : Entry := ⟨[107], 1, .value, [118]⟩

/-- The directory behind the crash. -/
def Dir.crashed (disk : Disk) (log : Bytes) : Dir where
  disk
  filenames := [currentFileName, descriptorFileName 2, logFileName 3]
  logs name := if name = logFileName 3 then some log else none

theorem Dir.logs_crashed (disk : Disk) (log : Bytes) :
    (Dir.crashed disk log).logs (logFileName (3 % 2 ^ 32)) = some log := by
  simp [crashed]

theorem encodable_openStep {s : Nat} (hs : s < 2 ^ 64) :
    (⟨1, s, ({} : VersionEdit).setLogNumber 3⟩ : ApplyStep).Encodable := by
  refine ⟨hs, ?_, ?_, ?_, fun d hd => absurd hd Std.ExtTreeSet.not_mem_empty, ?_⟩
  · intro n hn
    cases hn
    decide
  · intro n hn
    cases hn
  · intro n hn
    cases hn
  · intro p hp
    cases hp

theorem firstPut_eq : firstPut =
    .layout (encodeFixed64 1) [⟨.value, [107], [118]⟩] :=
  WriteBatch.setSequence_ofOps 1 [⟨.value, [107], [118]⟩]

theorem encodable_firstOp : ∀ op ∈ [(⟨.value, [107], [118]⟩ : Op)], op.Encodable :=
  List.forall_mem_singleton.mpr (Op.encodable_put (by decide) (by decide))

theorem entries_firstPut : firstPut.entries = [firstEntry] := by
  rw [firstPut_eq, WriteBatch.entries_layout (by decide) encodable_firstOp]
  rfl

theorem mem_replayed_firstPut {e : Entry} : e ∈ replayed [[firstPut]] ↔ e = firstEntry := by
  rw [replayed, List.flatMap_singleton, List.flatMap_singleton, entries_firstPut, List.mem_singleton]

theorem cut_firstPut : cut 8192 [] [firstPut] = ([], [firstEntry]) := by
  have husage : ¬ (Memtable.ofEntries [firstEntry]).approximateMemoryUsage > 8192 := by
    decide +kernel
  rw [cut, entries_firstPut, List.nil_append, if_neg husage, cut]

/-- The reader gets a record back that leaves a byte of its block. -/
theorem readRecords_single {str : Bytes} {w : WalWriter WritableFile}
    (h : WalWriter.appendAll .castagnoli (.new WritableFile.empty) [str] = some w) (hne : str ≠ [])
    (hlen : str.length < 32761) :
    Reader.readRecords .castagnoli (.new ⟨w.file.disk⟩ true 0) = some [str] := by
  rw [WalWriter.appendAll_new] at h
  cases h
  rw [readRecords_emission, readBack_emission_iff (Nat.le_refl _) (List.forall_mem_singleton.mpr hne)]
  exact fitsBlocks_singleton.mpr hlen

theorem batches_single {str : Bytes} {w : WalWriter WritableFile} {dir : Dir} {number : Nat}
    (h : WalWriter.appendAll .castagnoli (.new WritableFile.empty) [str] = some w) (hne : str ≠ [])
    (hlen : str.length < 32761) (hfile : dir.logs (logFileName (number % 2 ^ 32)) = some w.file.disk) :
    dir.batches .castagnoli number = some (batchesOf [str]) := by
  rw [Dir.batches, hfile, Option.bind_some, readRecords_single h hne hlen]
  rfl

/-- The replay of a log with one record. -/
theorem recoverLogs_single {str : Bytes} {w : WalWriter WritableFile} {dir : Dir} {number : Nat}
    (limit : Nat)
    (h : WalWriter.appendAll .castagnoli (.new WritableFile.empty) [str] = some w) (hne : str ≠ [])
    (hlen : str.length < 32761) (hnumber : number % 2 ^ 32 ≠ 0)
    (hfile : dir.logs (logFileName (number % 2 ^ 32)) = some w.file.disk) (r : LogReplay) :
    r.recoverLogs .castagnoli limit {} dir [number] =
      some (LogReplay.replayBatches limit {} (batchesOf [str]) none r) := by
  rw [LogReplay.recoverLogs, LogReplay.recoverLogFile, if_neg hnumber, hfile]
  dsimp only
  rw [LogReplay.recoverLoop_of_readRecords (readRecords_single h hne hlen), Option.bind_eq_bind,
    Option.bind_some]
  split
  · rfl
  · next hok =>
    rw [LogReplay.recoverLogs]
    exact congrArg some (Prod.ext (not_not.mp hok).symm rfl)

theorem firstPut_contents_ne_nil : firstPut.contents ≠ [] := List.cons_ne_nil _ _

theorem length_firstPut : firstPut.contents.length < 32761 := by decide

namespace LogReplay

theorem replayRecord_firstPut (r : LogReplay) :
    ∃ q, r.replayRecord 8192 {} firstPut.contents none =
      (.ok, some (Memtable.ofEntries [firstEntry]), { r with maxSequence := q }) := by
  have husage : ¬ (Memtable.ofEntries [firstEntry]).approximateMemoryUsage > 8192 := by
    decide +kernel
  have hinsert : firstPut.insertInto {} = (.ok, Memtable.ofEntries [firstEntry]) := by
    rw [firstPut_eq, WriteBatch.insertInto_layout (length_encodeFixed64 1) encodable_firstOp
      (by decide), ← firstPut_eq, entries_firstPut]
    rfl
  rw [replayRecord, show WriteBatch.setContents firstPut.contents = firstPut from rfl,
    Option.getD_none, hinsert]
  dsimp only
  rw [if_neg (not_not.mpr rfl), if_neg husage]
  exact ⟨_, rfl⟩

/-- The replay of logs with the one record leaves everything but `max_sequence` as it was. -/
theorem recoverLogs_firstPut {w : WalWriter WritableFile} {dir : Dir} {numbers : List Nat}
    (h : WalWriter.appendAll .castagnoli (.new WritableFile.empty) [firstPut.contents] = some w)
    (hlogs : ∀ number ∈ numbers, number % 2 ^ 32 ≠ 0 ∧
      dir.logs (logFileName (number % 2 ^ 32)) = some w.file.disk) (r : LogReplay) :
    ∃ q, r.recoverLogs .castagnoli 8192 {} dir numbers =
      some (.ok, { r with maxSequence := q }) := by
  induction numbers generalizing r with
  | nil => exact ⟨r.maxSequence, rfl⟩
  | cons number numbers ih =>
    obtain ⟨⟨hnumber, hfile⟩, hlogs⟩ := List.forall_mem_cons.mp hlogs
    obtain ⟨q, hq⟩ := replayRecord_firstPut r
    obtain ⟨q', hrest⟩ := ih hlogs { r with maxSequence := q }
    have hbatches : batchesOf [firstPut.contents] = [firstPut] := by rfl
    have hlog : r.recoverLogFile .castagnoli 8192 {} dir number =
        some (.ok, { r with maxSequence := q }) := by
      rw [recoverLogFile]
      rw [if_neg hnumber, hfile]
      dsimp only
      rw [recoverLoop_of_readRecords (readRecords_single h firstPut_contents_ne_nil length_firstPut),
        hbatches, replayBatches, hq]
      rfl
    refine ⟨q', ?_⟩
    rw [recoverLogs, hlog, Option.bind_eq_bind, Option.bind_some]
    dsimp only
    rw [if_neg (not_not.mpr rfl), hrest]

end LogReplay

/-- What `VersionSet::Recover` makes of the manifest that an `Open` of a new database leaves. -/
theorem recover_openStep {s : Nat} (hs : s < 2 ^ 64) :
    ∃ vs disk, newDatabase.bind (applyAll [⟨1, s, ({} : VersionEdit).setLogNumber 3⟩]) =
        some (vs, disk) ∧
      disk.current.isSome ∧
      VersionSet.recover {} disk =
        some (.ok, true, ({} : VersionSet).raiseNextFile.installRecovered {} 4 3 s) := by
  have hrun : (applyAll [⟨1, s, ({} : VersionEdit).setLogNumber 3⟩] (newVersionSet, newDb)).map
      (fun w => (w.1.nextFileNumber, w.1.logNumber, w.1.lastSequence, w.2.current.isSome)) =
        some (4, 3, s, true) := by rfl
  obtain ⟨⟨vs, disk⟩, hrun, hvs⟩ := Option.map_eq_some_iff.mp hrun
  simp only [Prod.mk.injEq] at hvs
  obtain ⟨hnext, hlog, hseq, hcurrent⟩ := hvs
  have hlater : DeletedLater [({} : VersionEdit).setLogNumber 3] := by
    refine ⟨fun level n h => ?_, trivial⟩
    obtain ⟨f, hf, -⟩ := h
    cases hf
  obtain ⟨next, hne, hrecover⟩ := recover_applyAll
    (List.forall_mem_singleton.mpr (encodable_openStep hs)) hrun
    (List.forall_mem_singleton.mpr rfl) hlater
  rw [hne (List.cons_ne_nil _ _), hnext, hlog, hseq] at hrecover
  refine ⟨vs, disk, ?_, hcurrent, hrecover⟩
  rw [newDatabase_eq]
  exact hrun

/-- What an `Open` that succeeds has read of the directory behind the crash. -/
theorem Dir.recovered_crashed {w : WalWriter WritableFile} {disk : Disk} {vs vs' : VersionSet}
    {str : Bytes} {limit : Nat} {db : Opened} {logs : List (List WriteBatch)}
    (h : WalWriter.appendAll .castagnoli (.new WritableFile.empty) [str] = some w) (hne : str ≠ [])
    (hlen : str.length < 32761) (hcurrent : disk.current.isSome)
    (hrecover : VersionSet.recover {} disk = some (.ok, true, vs))
    (hscan : scanFiles vs.logNumber (Dir.crashed disk w.file.disk).filenames (vs.addLiveFiles ∅) =
      some (∅, [3]))
    (hrec : (Dir.crashed disk w.file.disk).Recovered .castagnoli limit db vs' logs) :
    vs' = vs ∧ logs = [batchesOf [str]] := by
  obtain ⟨save, hmanifest⟩ := hrec.manifest
  rw [show (Dir.crashed disk w.file.disk).withCurrent = .crashed disk w.file.disk from
    if_pos hcurrent] at hmanifest
  cases hrecover.symm.trans hmanifest
  have hreplayed := hrec.replayedLogs
  rw [Dir.replayedLogs, hscan] at hreplayed
  dsimp only [Option.bind_eq_bind, Option.bind_some] at hreplayed
  rw [List.mergeSort_singleton, List.mapM_cons,
    batches_single h hne hlen (Dir.logs_crashed disk w.file.disk)] at hreplayed
  cases hreplayed
  exact ⟨rfl, rfl⟩

/-- `Recover` where the replay of the logs goes well. -/
theorem Dir.recover_of_replay {limit : Nat} {dir : Dir} {vs : VersionSet} {numbers : List Nat}
    {r : LogReplay} (hcurrent : dir.disk.current.isSome)
    (hrecover : VersionSet.recover {} dir.disk = some (.ok, true, vs))
    (hscan : scanFiles vs.logNumber dir.filenames (vs.addLiveFiles ∅) = some (∅, numbers))
    (hreplay : LogReplay.recoverLogs .castagnoli limit {} dir (numbers.mergeSort (· ≤ ·))
      { versions := vs, saveManifest := true } = some (.ok, r)) :
    dir.recover .castagnoli limit {} = some (.ok, r) := by
  have hsome : ¬ dir.disk.current.isNone := by
    rw [Option.isNone_iff_eq_none]
    exact Option.isSome_iff_ne_none.mp hcurrent
  rw [recover, if_neg (not_not.mpr rfl), if_neg (fun h => hsome h.1), withCurrent,
    if_pos hcurrent, hrecover]
  dsimp only [Option.bind_eq_bind, Option.bind_some]
  rw [if_neg (not_not.mpr rfl), if_neg (not_not.mpr rfl), hscan]
  dsimp only [Option.bind_some]
  rw [if_neg Finset.not_nonempty_empty, hreplay]

/-- Over logs with the one record. -/
theorem Dir.recover_firstPut {w : WalWriter WritableFile} {dir : Dir} {vs : VersionSet}
    {numbers : List Nat}
    (h : WalWriter.appendAll .castagnoli (.new WritableFile.empty) [firstPut.contents] = some w)
    (hcurrent : dir.disk.current.isSome)
    (hrecover : VersionSet.recover {} dir.disk = some (.ok, true, vs))
    (hscan : scanFiles vs.logNumber dir.filenames (vs.addLiveFiles ∅) = some (∅, numbers))
    (hlogs : ∀ number ∈ numbers, number % 2 ^ 32 ≠ 0 ∧
      dir.logs (logFileName (number % 2 ^ 32)) = some w.file.disk) :
    ∃ q, dir.recover .castagnoli 8192 {} =
      some (.ok, { versions := vs, saveManifest := true, maxSequence := q }) := by
  have hlogs' : ∀ number ∈ numbers.mergeSort (· ≤ ·), number % 2 ^ 32 ≠ 0 ∧
      dir.logs (logFileName (number % 2 ^ 32)) = some w.file.disk :=
    fun number hmem => hlogs number (List.mem_mergeSort.mp hmem)
  obtain ⟨q, hreplay⟩ := LogReplay.recoverLogs_firstPut h hlogs'
    { versions := vs, saveManifest := true }
  exact ⟨q, recover_of_replay hcurrent hrecover hscan hreplay⟩

/-- `Open` behind a `Recover` that goes well. -/
theorem Dir.open_of_recover {limit : Nat} {dir : Dir} {r : LogReplay}
    (h : dir.recover .castagnoli limit {} = some (.ok, r)) (hsave : r.saveManifest)
    (hnumber : r.versions.newFileNumber.1 ≠ 0)
    (happly : (r.versions.newFileNumber.2.logAndApply dir.withCurrent.disk
      (r.edit.setLogNumber r.versions.newFileNumber.1) {}).isSome) :
    ∃ db, dir.open .castagnoli limit {} = some (.ok, some db) := by
  obtain ⟨⟨s, versions, disk⟩, happly⟩ := Option.isSome_iff_exists.mp happly
  cases VersionSet.logAndApply_ok happly
  refine ⟨⟨versions, disk, {}, r.versions.newFileNumber.1,
    r.edit.setLogNumber r.versions.newFileNumber.1, r.tables⟩, ?_⟩
  rw [Dir.open, h]
  dsimp only [Option.bind_eq_bind, Option.bind_some]
  rw [if_neg (not_not.mpr rfl), if_neg hnumber, if_neg (not_not.mpr rfl), if_pos hsave, happly]
  rfl

/-- The next `Open` replays the record of the `Put`. -/
theorem open_crashed :
    ∃ w vs disk db, WalWriter.appendAll .castagnoli (.new WritableFile.empty)
        [firstPut.contents] = some w ∧
      newDatabase.bind (applyAll [sessionOpen]) = some (vs, disk) ∧
      (Dir.crashed disk w.file.disk).open .castagnoli 8192 {} = some (.ok, some db) ∧
      ∃ vs, vs.lastSequence = 0 ∧
        (Dir.crashed disk w.file.disk).Recovered .castagnoli 8192 db vs [[firstPut]] := by
  obtain ⟨w, hw⟩ : ∃ w, WalWriter.appendAll .castagnoli (.new WritableFile.empty)
      [firstPut.contents] = some w := ⟨_, WalWriter.appendAll_new _ _⟩
  obtain ⟨vs, disk, hrun, hcurrent, hrecover⟩ := recover_openStep (s := 0) (by decide)
  generalize hvs : ({} : VersionSet).raiseNextFile.installRecovered {} 4 3 0 = vs₁ at hrecover
  have hscan : scanFiles vs₁.logNumber (Dir.crashed disk w.file.disk).filenames
      (vs₁.addLiveFiles ∅) = some (∅, [3]) := by
    rw [← hvs]
    rfl
  obtain ⟨q, hreplay⟩ := @Dir.recover_firstPut w (.crashed disk w.file.disk) _ _ hw hcurrent hrecover
    hscan (List.forall_mem_singleton.mpr ⟨by decide, Dir.logs_crashed disk w.file.disk⟩)
  have hnumber : vs₁.newFileNumber.1 ≠ 0 := by
    rw [← hvs]
    decide
  obtain ⟨db, hopen⟩ := Dir.open_of_recover hreplay rfl hnumber (by
    rw [show (Dir.crashed disk w.file.disk).withCurrent = .crashed disk w.file.disk from
      if_pos hcurrent, ← hvs]
    rfl)
  refine ⟨w, vs, disk, db, hw, hrun, hopen, vs₁, ?_, ?_⟩
  · rw [← hvs]
    rfl
  · obtain ⟨vs₂, logs, hrec⟩ := Dir.open_recovered hopen
    obtain ⟨rfl, rfl⟩ := Dir.recovered_crashed hw firstPut_contents_ne_nil length_firstPut hcurrent
      hrecover hscan hrec
    exact hrec

/-! ## A `Put` that becomes a table

The manifest has its sequence number, its value is empty, and the replay's `write_buffer_size` is
4096. -/

def storedOpen : ApplyStep := ⟨1, 1, ({} : VersionEdit).setLogNumber 3⟩

def emptyPut : WriteBatch := (WriteBatch.new.put [107] []).setSequence 1

def emptyEntry : Entry := ⟨[107], 1, .value, []⟩

theorem emptyPut_contents_ne_nil : emptyPut.contents ≠ [] := List.cons_ne_nil _ _

theorem length_emptyPut : emptyPut.contents.length < 32761 := by decide

theorem emptyPut_eq : emptyPut = .layout (encodeFixed64 1) [⟨.value, [107], []⟩] :=
  WriteBatch.setSequence_ofOps 1 [⟨.value, [107], []⟩]

theorem encodable_emptyOp : ∀ op ∈ [(⟨.value, [107], []⟩ : Op)], op.Encodable :=
  List.forall_mem_singleton.mpr (Op.encodable_put (by decide) (by decide))

theorem entries_emptyPut : emptyPut.entries = [emptyEntry] := by
  rw [emptyPut_eq, WriteBatch.entries_layout (by decide) encodable_emptyOp]
  rfl

theorem usage_emptyEntry : (Memtable.ofEntries [emptyEntry]).approximateMemoryUsage > 4096 := by
  decide +kernel

theorem cut_emptyPut : cut 4096 [] [emptyPut] = ([emptyEntry], []) := by
  rw [cut, entries_emptyPut, List.nil_append, if_pos usage_emptyEntry, cut]
  rfl

theorem replayRecord_emptyPut (r : LogReplay) :
    ∃ q, r.replayRecord 4096 {} emptyPut.contents none = (.ok, none, { r with
      versions := r.versions.newFileNumber.2
      edit := r.edit.addFile 0 ((Memtable.ofEntries [emptyEntry]).fileMate r.versions.nextFileNumber 1)
      saveManifest := true
      maxSequence := q
      tables := r.tables ++ [⟨(Memtable.ofEntries [emptyEntry]).fileMate r.versions.nextFileNumber 1,
        (Memtable.ofEntries [emptyEntry]).flushlevel0fromskip⟩] }) := by
  have hinsert : emptyPut.insertInto {} = (.ok, Memtable.ofEntries [emptyEntry]) := by
    rw [emptyPut_eq, WriteBatch.insertInto_layout (length_encodeFixed64 1) encodable_emptyOp
      (by decide), ← emptyPut_eq, entries_emptyPut]
    rfl
  rw [LogReplay.replayRecord, show WriteBatch.setContents emptyPut.contents = emptyPut from rfl,
    Option.getD_none, hinsert]
  dsimp only
  rw [if_neg (not_not.mpr rfl), if_pos usage_emptyEntry]
  exact ⟨_, rfl⟩

/-- The next `Open` makes a table of the record. -/
theorem open_stored :
    ∃ w vs disk db, WalWriter.appendAll .castagnoli (.new WritableFile.empty)
        [emptyPut.contents] = some w ∧
      newDatabase.bind (applyAll [storedOpen]) = some (vs, disk) ∧
      (Dir.crashed disk w.file.disk).open .castagnoli 4096 {} = some (.ok, some db) ∧
      ∀ vs logs, (Dir.crashed disk w.file.disk).Recovered .castagnoli 4096 db vs logs →
        vs.lastSequence = 1 ∧ logs = [[emptyPut]] := by
  obtain ⟨w, hw⟩ : ∃ w, WalWriter.appendAll .castagnoli (.new WritableFile.empty)
      [emptyPut.contents] = some w := ⟨_, WalWriter.appendAll_new _ _⟩
  obtain ⟨vs, disk, hrun, hcurrent, hrecover⟩ := recover_openStep (s := 1) (by decide)
  generalize hvs : ({} : VersionSet).raiseNextFile.installRecovered {} 4 3 1 = vs₁ at hrecover
  have hscan : scanFiles vs₁.logNumber (Dir.crashed disk w.file.disk).filenames
      (vs₁.addLiveFiles ∅) = some (∅, [3]) := by
    rw [← hvs]
    rfl
  have hopen : ∃ db, (Dir.crashed disk w.file.disk).open .castagnoli 4096 {} =
      some (.ok, some db) := by
    obtain ⟨q, hrecord⟩ := replayRecord_emptyPut { versions := vs₁, saveManifest := true }
    have hbatches : batchesOf [emptyPut.contents] = [emptyPut] := by rfl
    have hreplay := recoverLogs_single 4096 hw emptyPut_contents_ne_nil length_emptyPut (by decide)
      (Dir.logs_crashed disk w.file.disk) { versions := vs₁, saveManifest := true }
    rw [hbatches, LogReplay.replayBatches, hrecord, ← List.mergeSort_singleton] at hreplay
    have hnumber : vs₁.newFileNumber.2.newFileNumber.1 ≠ 0 := by
      rw [← hvs]
      decide
    refine Dir.open_of_recover (Dir.recover_of_replay hcurrent hrecover hscan hreplay) rfl hnumber ?_
    rw [show (Dir.crashed disk w.file.disk).withCurrent = .crashed disk w.file.disk from
      if_pos hcurrent, ← hvs]
    rfl
  obtain ⟨db, hopen⟩ := hopen
  refine ⟨w, vs, disk, db, hw, hrun, hopen, fun vs' logs hrec => ?_⟩
  obtain ⟨rfl, rfl⟩ := Dir.recovered_crashed hw emptyPut_contents_ne_nil length_emptyPut hcurrent
    hrecover hscan hrec
  exact ⟨by rw [← hvs]; rfl, rfl⟩

variable {C : Crc32c} {limit : Nat} {io : OpenIo} {dir : Dir} {db : Opened}

/-! ## Entries -/

/-- A successful `Open` has kept every entry of the logs for exactly the logs whose last memtables
hold nothing that is not in a table anyway, and whose values the skiplist leaves as they are. -/
theorem Dir.open_retains_iff (h : dir.open C limit io = some (.ok, some db)) :
    ∃ vs logs, dir.Recovered C limit db vs logs ∧
      ((∀ e ∈ replayed logs, db.Retains e.node) ↔
        (∀ e ∈ dropped limit logs, ∃ e' ∈ flushed limit logs, e'.node = e.node) ∧
          ∀ e ∈ flushed limit logs, storedVal e.value = e.value) := by
  obtain ⟨vs, logs, hrec⟩ := Dir.open_recovered h
  refine ⟨vs, logs, hrec, ?_⟩
  have hnode {e : Entry} (hval : storedVal e.value = e.value) : e.storedNode = e.node := by
    rw [Entry.storedNode, hval, Entry.node]
  constructor
  · intro hall
    have hval : ∀ e ∈ flushed limit logs, storedVal e.value = e.value := by
      intro e he
      refine storedVal_eq_of_forall (S := fun v => ∃ e ∈ flushed limit logs, e.value = v) ?_
        ⟨e, he, rfl⟩
      rintro v ⟨e, he, rfl⟩
      obtain ⟨e', he', heq⟩ := (hrec.retains _).mp (hall e (mem_replayed.mpr (.inl he)))
      exact ⟨e'.value, ⟨e', he', rfl⟩, congrArg Node.val heq⟩
    refine ⟨fun e he => ?_, hval⟩
    obtain ⟨e', he', heq⟩ := (hrec.retains _).mp (hall e (mem_replayed.mpr (.inr he)))
    exact ⟨e', he', (hnode (hval e' he')).symm.trans heq⟩
  · rintro ⟨hdropped, hval⟩ e he
    rw [hrec.retains]
    rcases mem_replayed.mp he with he | he
    · exact ⟨e, he, hnode (hval e he)⟩
    · obtain ⟨e', he', heq⟩ := hdropped e he
      exact ⟨e', he', (hnode (hval e' he')).trans heq⟩

/-- The entry that becomes a table is kept. -/
theorem open_retains_stored :
    ∃ w vs disk db, WalWriter.appendAll .castagnoli (.new WritableFile.empty)
        [emptyPut.contents] = some w ∧
      newDatabase.bind (applyAll [storedOpen]) = some (vs, disk) ∧
      ∃ vs logs, (Dir.crashed disk w.file.disk).Recovered .castagnoli 4096 db vs logs ∧
        ((∀ e ∈ replayed logs, db.Retains e.node) ↔
          (∀ e ∈ dropped 4096 logs, ∃ e' ∈ flushed 4096 logs, e'.node = e.node) ∧
            ∀ e ∈ flushed 4096 logs, storedVal e.value = e.value) ∧
        emptyEntry ∈ replayed logs ∧ ∀ e ∈ replayed logs, db.Retains e.node := by
  obtain ⟨w, vs, disk, db, hw, hrun, hopen, hread⟩ := open_stored
  obtain ⟨vs', logs, hrec, hiff⟩ := Dir.open_retains_iff hopen
  refine ⟨w, vs, disk, db, hw, hrun, vs', logs, hrec, hiff, ?_, hiff.mpr ⟨fun e he => ?_, ?_⟩⟩
  · rw [(hread vs' logs hrec).2, replayed, List.flatMap_singleton, List.flatMap_singleton,
      entries_emptyPut]
    exact List.mem_singleton_self _
  · rw [(hread vs' logs hrec).2, dropped, List.flatMap_singleton, cut_emptyPut] at he
    cases he
  · rw [(hread vs' logs hrec).2, flushed, List.flatMap_singleton, cut_emptyPut,
      List.forall_mem_singleton]
    rfl

/-- The entry of the `Put` is in no table and not in `mem_`. -/
theorem not_open_retains :
    ∃ w vs disk db, WalWriter.appendAll .castagnoli (.new WritableFile.empty)
        [firstPut.contents] = some w ∧
      newDatabase.bind (applyAll [sessionOpen]) = some (vs, disk) ∧
      (Dir.crashed disk w.file.disk).open .castagnoli 8192 {} = some (.ok, some db) ∧
      ∃ vs logs, (Dir.crashed disk w.file.disk).Recovered .castagnoli 8192 db vs logs ∧
        ¬ ∀ e ∈ replayed logs, db.Retains e.node := by
  obtain ⟨w, vs, disk, db, hw, hrun, hopen, vs', -, hrec⟩ := open_crashed
  refine ⟨w, vs, disk, db, hw, hrun, hopen, vs', _, hrec, fun hall => ?_⟩
  obtain ⟨e, he, -⟩ := (hrec.retains _).mp (hall firstEntry (mem_replayed_firstPut.mpr rfl))
  rw [flushed, List.flatMap_singleton, cut_firstPut] at he
  cases he

/-! ## Sequence numbers -/

/-- The last sequence number behind a successful `Open` is that of the manifest, whatever
`max_sequence` has been. -/
theorem Dir.open_lastSequence_iff (h : dir.open C limit io = some (.ok, some db)) :
    ∃ vs logs, dir.Recovered C limit db vs logs ∧
      ((vs.lastSequence ≤ db.versions.lastSequence ∧
          ∀ e ∈ replayed logs, e.sequence ≤ db.versions.lastSequence) ↔
        ∀ e ∈ replayed logs, e.sequence ≤ vs.lastSequence) := by
  obtain ⟨vs, logs, hrec⟩ := Dir.open_recovered h
  refine ⟨vs, logs, hrec, ?_⟩
  rw [hrec.lastSequence]
  exact and_iff_right (Nat.le_refl _)

/-- The manifest has the number of the entry. -/
theorem open_lastSequence_stored :
    ∃ w vs disk db, WalWriter.appendAll .castagnoli (.new WritableFile.empty)
        [emptyPut.contents] = some w ∧
      newDatabase.bind (applyAll [storedOpen]) = some (vs, disk) ∧
      ∃ vs logs, (Dir.crashed disk w.file.disk).Recovered .castagnoli 4096 db vs logs ∧
        ((vs.lastSequence ≤ db.versions.lastSequence ∧
            ∀ e ∈ replayed logs, e.sequence ≤ db.versions.lastSequence) ↔
          ∀ e ∈ replayed logs, e.sequence ≤ vs.lastSequence) ∧
        emptyEntry ∈ replayed logs ∧ db.versions.lastSequence = 1 ∧
          ∀ e ∈ replayed logs, e.sequence ≤ db.versions.lastSequence := by
  obtain ⟨w, vs, disk, db, hw, hrun, hopen, hread⟩ := open_stored
  obtain ⟨vs', logs, hrec, hiff⟩ := Dir.open_lastSequence_iff hopen
  obtain ⟨hseq, rfl⟩ := hread vs' logs hrec
  have hreplayed : replayed [[emptyPut]] = [emptyEntry] := by
    rw [replayed, List.flatMap_singleton, List.flatMap_singleton, entries_emptyPut]
  refine ⟨w, vs, disk, db, hw, hrun, vs', _, hrec, hiff, ?_, hrec.lastSequence.trans hseq,
    (hiff.mpr fun e he => ?_).2⟩
  · rw [hreplayed]
    exact List.mem_singleton_self _
  · rw [hreplayed, List.mem_singleton] at he
    rw [he, hseq]
    exact Nat.le_refl 1

/-- The `Put` has sequence number 1, and the last sequence number is 0 again. -/
theorem not_open_lastSequence :
    ∃ w vs disk db, WalWriter.appendAll .castagnoli (.new WritableFile.empty)
        [firstPut.contents] = some w ∧
      newDatabase.bind (applyAll [sessionOpen]) = some (vs, disk) ∧
      (Dir.crashed disk w.file.disk).open .castagnoli 8192 {} = some (.ok, some db) ∧
      ∃ vs logs, (Dir.crashed disk w.file.disk).Recovered .castagnoli 8192 db vs logs ∧
        ¬ ∀ e ∈ replayed logs, e.sequence ≤ db.versions.lastSequence := by
  obtain ⟨w, vs, disk, db, hw, hrun, hopen, vs', hseq, hrec⟩ := open_crashed
  refine ⟨w, vs, disk, db, hw, hrun, hopen, vs', _, hrec, fun hall => ?_⟩
  have hle := hall firstEntry (mem_replayed_firstPut.mpr rfl)
  rw [hrec.lastSequence, hseq] at hle
  exact absurd hle (by decide)

end Yubindb
