import Yubindb.Db.Reopen

/-!
# The log of an opened database

`Open` asks `NewFileNumber` for the number of its log, and `NewWritableFile` truncates a file that is
there. Behind `Recover` the next number is that of the manifest, plus one for each table that the
replay has written; the numbers of the logs do not raise it.
-/

namespace Yubindb

/-- The memtables of the batches that outgrow `write_buffer_size`, where the memtable in use holds
the entries `cur`. -/
def numTables (writeBufferSize : Nat) : List Entry → List WriteBatch → Nat
  | _, [] => 0
  | cur, b :: batches =>
    let cur := cur ++ b.entries
    if (Memtable.ofEntries cur).approximateMemoryUsage > writeBufferSize then
      numTables writeBufferSize [] batches + 1
    else numTables writeBufferSize cur batches

/-- The tables that the replay of the logs writes. -/
def numTablesOf (writeBufferSize : Nat) (logs : List (List WriteBatch)) : Nat :=
  (logs.map (numTables writeBufferSize [])).sum

namespace VersionSet
variable {vs : VersionSet}

/-- The version set behind `n` calls of `NewFileNumber`. -/
def takeNumbers (vs : VersionSet) (n : Nat) : VersionSet :=
  { vs with nextFileNumber := (vs.nextFileNumber + n) % 2 ^ 64 }

theorem takeNumbers_zero (h : vs.nextFileNumber < 2 ^ 64) : vs.takeNumbers 0 = vs := by
  rw [takeNumbers, Nat.add_zero, Nat.mod_eq_of_lt h]

theorem newFileNumber_takeNumbers (n : Nat) :
    (vs.takeNumbers n).newFileNumber.2 = vs.takeNumbers (n + 1) := by
  rw [newFileNumber, takeNumbers, takeNumbers, Nat.mod_add_mod, Nat.add_assoc]

/-- `manifest_file_number` is the next file number that the manifest has. -/
theorem nextFileNumber_recover {vs' : VersionSet} {disk : Disk} {save : Bool}
    (h : vs.recover disk = some (.ok, save, vs')) :
    vs'.nextFileNumber = (vs'.manifestFileNumber + 1) % 2 ^ 64 := by
  obtain ⟨-, _, _, _, _, _, -, -, -, rfl⟩ := recover_ok h
  rfl

end VersionSet

namespace LogReplay
variable {limit : Nat} {io : OpenIo} {r r' : LogReplay} {mem : Option Memtable}
  {cur : List Entry} {batches : List WriteBatch} {vs : VersionSet} {n : Nat}

theorem versions_writeLevel0Table {m : Memtable} {s : State} (hr : r.versions = vs.takeNumbers n)
    (h : r.writeLevel0Table io m = (s, r')) : r'.versions = vs.takeNumbers (n + 1) := by
  rw [writeLevel0Table, hr] at h
  dsimp only at h
  split at h
  all_goals cases h
  · exact VersionSet.newFileNumber_takeNumbers n
  · exact VersionSet.newFileNumber_takeNumbers n

/-- A log takes one number for each of its tables. -/
theorem versions_replayBatches (hr : r.versions = vs.takeNumbers n)
    (hmem : mem.getD {} = Memtable.ofEntries cur)
    (h : replayBatches limit io batches mem r = (.ok, r')) :
    r'.versions = vs.takeNumbers (n + numTables limit cur batches) := by
  induction batches generalizing cur mem r n with
  | nil =>
    cases h
    exact hr
  | cons b batches ih =>
    rw [replayBatches] at h
    dsimp only at h
    split at h
    · next hs => exact absurd (congrArg Prod.fst h) hs
    · next hs =>
      obtain ⟨m, hm, hrecord⟩ := replayRecord_ok (Prod.ext (not_not.mp hs) rfl)
      obtain rfl : m = Memtable.ofEntries (cur ++ b.entries) := by
        rw [hm, hmem, Memtable.ofEntries, Memtable.ofEntries, List.foldl_append]
      rw [numTables]
      split at hrecord
      · next hlimit =>
        obtain ⟨hnone, q, hwrite⟩ := hrecord
        rw [hnone] at h
        rw [if_pos hlimit, Nat.add_comm _ 1, ← Nat.add_assoc]
        have hr : ({ r with maxSequence := q, saveManifest := true } : LogReplay).versions =
          vs.takeNumbers n := hr
        exact ih (versions_writeLevel0Table hr hwrite) rfl h
      · next hlimit =>
        obtain ⟨hsome, q, hseq⟩ := hrecord
        rw [hsome, hseq] at h
        rw [if_neg hlimit]
        have hr : ({ r with maxSequence := q } : LogReplay).versions = vs.takeNumbers n := hr
        exact ih hr rfl h

end LogReplay

/-! ## The number of the new log -/

/-- What a successful `Recover` has read: the manifest, the numbers of the logs in the directory, and
the batches of these logs. -/
structure Dir.Replays (C : Crc32c) (dir : Dir) (vs : VersionSet) (numbers : List Nat)
    (logs : List (List WriteBatch)) : Prop where
  manifest : ∃ save, VersionSet.recover {} dir.withCurrent.disk = some (.ok, save, vs)
  listing : ∃ expected,
    scanFiles vs.logNumber dir.filenames (vs.addLiveFiles ∅) = some (expected, numbers)
  contents : (numbers.mergeSort (· ≤ ·)).mapM (dir.batches C) = some logs

/-- `NewFileNumber` returns a number above those of the files that were replayed, and no log with it
is there that the next recovery would read. `RecoverLogFile` takes the number as a `uint32_t`. -/
def Dir.KeepsLogs (dir : Dir) (numbers : List Nat) (versions : VersionSet) : Prop :=
  (∀ number ∈ numbers, number % 2 ^ 32 < versions.newFileNumber.1) ∧
    ¬ (logFileName versions.newFileNumber.1 ∈ dir.filenames ∧
      versions.logNumber ≤ versions.newFileNumber.1)

namespace Dir
variable {C : Crc32c} {limit : Nat} {io : OpenIo} {dir : Dir} {r : LogReplay}

/-- The version set behind a successful `Recover`. -/
theorem recover_versions (h : dir.recover C limit io = some (.ok, r)) :
    ∃ vs numbers logs, dir.Replays C vs numbers logs ∧
      r.versions = vs.takeNumbers (numTablesOf limit logs) := by
  obtain ⟨save, vs, expected, numbers, hrecover, hscan, h⟩ := recover_stages h
  have hbound : vs.nextFileNumber < 2 ^ 64 := by
    rw [VersionSet.nextFileNumber_recover hrecover]
    exact Nat.mod_lt _ (Nat.two_pow_pos 64)
  have hnew : vs = vs.takeNumbers (numTablesOf limit []) :=
    (VersionSet.takeNumbers_zero hbound).symm
  have hstep : ∀ logs batches r r', (∀ e ∈ batches.flatMap WriteBatch.entries, e.Fits) →
      r.versions = vs.takeNumbers (numTablesOf limit logs) →
      LogReplay.replayBatches limit io batches none r = (.ok, r') →
      r'.versions = vs.takeNumbers (numTablesOf limit (logs ++ [batches])) := by
    intro logs batches r r' _ hr hreplay
    have hmem : (none : Option Memtable).getD {} = Memtable.ofEntries [] := rfl
    have hnumbers := LogReplay.versions_replayBatches hr hmem hreplay
    rwa [numTablesOf, List.map_append, List.sum_append, List.map_singleton, List.sum_singleton]
  obtain ⟨logs, hlogs, hversions⟩ := LogReplay.recoverLogs_induct
    (fun logs r => r.versions = vs.takeNumbers (numTablesOf limit logs)) hstep hnew h
  exact ⟨vs, numbers, logs, ⟨⟨save, hrecover⟩, ⟨expected, hscan⟩, hlogs⟩, hversions⟩

/-- The next number is that of the manifest, whatever the logs of the directory are called. So the
logs are kept exactly if the manifest's number and one number a table lead past them. -/
theorem recover_keepsLogs_iff (h : dir.recover C limit io = some (.ok, r)) :
    ∃ vs numbers logs, dir.Replays C vs numbers logs ∧
      (dir.KeepsLogs numbers r.versions ↔
        let next := (vs.manifestFileNumber + 1 + numTablesOf limit logs) % 2 ^ 64
        (∀ number ∈ numbers, number % 2 ^ 32 < next) ∧
          (logFileName next ∈ dir.filenames → next < vs.logNumber)) := by
  obtain ⟨vs, numbers, logs, hreplays, hversions⟩ := recover_versions h
  refine ⟨vs, numbers, logs, hreplays, ?_⟩
  obtain ⟨save, hmanifest⟩ := hreplays.manifest
  have hnext : r.versions.newFileNumber.1 =
      (vs.manifestFileNumber + 1 + numTablesOf limit logs) % 2 ^ 64 := by
    rw [hversions, ← Nat.mod_add_mod, ← VersionSet.nextFileNumber_recover hmanifest]
    rfl
  have hlog : r.versions.logNumber = vs.logNumber := by
    rw [hversions]
    rfl
  rw [KeepsLogs, hnext, hlog, not_and, Nat.not_le]

end Dir

/-- Behind the session of one `Put`, the next number is 5. -/
theorem recover_keepsLogs_crashed :
    ∃ w vs disk r, WalWriter.appendAll .castagnoli (.new WritableFile.empty)
        [firstPut.contents] = some w ∧
      newDatabase.bind (applyAll [sessionOpen]) = some (vs, disk) ∧
      (Dir.crashed disk w.file.disk).recover .castagnoli 8192 {} = some (.ok, r) ∧
      ∃ vs numbers logs, (Dir.crashed disk w.file.disk).Replays .castagnoli vs numbers logs ∧
        ((Dir.crashed disk w.file.disk).KeepsLogs numbers r.versions ↔
          let next := (vs.manifestFileNumber + 1 + numTablesOf 8192 logs) % 2 ^ 64
          (∀ number ∈ numbers, number % 2 ^ 32 < next) ∧
            (logFileName next ∈ (Dir.crashed disk w.file.disk).filenames →
              next < vs.logNumber)) ∧
        numbers = [3] ∧ (Dir.crashed disk w.file.disk).KeepsLogs numbers r.versions := by
  obtain ⟨w, hw⟩ : ∃ w, WalWriter.appendAll .castagnoli (.new WritableFile.empty)
      [firstPut.contents] = some w := ⟨_, WalWriter.appendAll_new _ _⟩
  obtain ⟨vs, disk, hrun, hcurrent, hrecover⟩ := recover_openStep (s := 0) (by decide)
  have hscan : scanFiles 3 (Dir.crashed disk w.file.disk).filenames
      ((({} : VersionSet).raiseNextFile.installRecovered {} 4 3 0).addLiveFiles ∅) =
        some (∅, [3]) := by rfl
  obtain ⟨q, hreplay⟩ := @Dir.recover_firstPut w (.crashed disk w.file.disk) _ _ hw hcurrent hrecover
    hscan (List.forall_mem_singleton.mpr ⟨by decide, Dir.logs_crashed disk w.file.disk⟩)
  obtain ⟨vs', numbers, logs, hreplays, hiff⟩ := Dir.recover_keepsLogs_iff hreplay
  obtain ⟨save, hmanifest⟩ := hreplays.manifest
  obtain ⟨expected, hlisting⟩ := hreplays.listing
  rw [show (Dir.crashed disk w.file.disk).withCurrent = .crashed disk w.file.disk from
    if_pos hcurrent] at hmanifest
  cases hrecover.symm.trans hmanifest
  cases hscan.symm.trans hlisting
  refine ⟨w, vs, disk, _, hw, hrun, hreplay, _, _, logs, hreplays, hiff, rfl, ?_, ?_⟩
  · show ∀ number ∈ [3], number % 2 ^ 32 < 5
    decide
  · rintro ⟨hmem, -⟩
    have hnot : logFileName 5 ∉ [currentFileName, descriptorFileName 2, logFileName 3] := by decide
    exact hnot hmem

/-! ## A number that was passed over

The session of one `Put`, but the file `000004.log` could not be created when the memtable was full:
the next try has made `000005.log`, and the manifest still has the number 4. -/

def Dir.passedOver (disk : Disk) (log : Bytes) : Dir where
  disk
  filenames := [currentFileName, descriptorFileName 2, logFileName 3, logFileName 5]
  logs name := if name = logFileName 3 ∨ name = logFileName 5 then some log else none

theorem Dir.logs_passedOver {disk : Disk} {log : Bytes} :
    ∀ number ∈ [3, 5], number % 2 ^ 32 ≠ 0 ∧
      (Dir.passedOver disk log).logs (logFileName (number % 2 ^ 32)) = some log := by
  refine List.forall_mem_cons.mpr ⟨⟨by decide, ?_⟩, List.forall_mem_singleton.mpr ⟨by decide, ?_⟩⟩
  · simp [passedOver]
  · simp [passedOver]

/-- `Recover` replays both logs, and `000005.log` is the next one. -/
theorem recover_passedOver :
    ∃ w vs disk r, WalWriter.appendAll .castagnoli (.new WritableFile.empty)
        [firstPut.contents] = some w ∧
      newDatabase.bind (applyAll [sessionOpen]) = some (vs, disk) ∧
      (Dir.passedOver disk w.file.disk).recover .castagnoli 8192 {} = some (.ok, r) ∧
      r.versions.newFileNumber.1 = 5 ∧
      ∃ vs, (Dir.passedOver disk w.file.disk).Replays .castagnoli vs [3, 5]
        [[firstPut], [firstPut]] := by
  obtain ⟨w, hw⟩ : ∃ w, WalWriter.appendAll .castagnoli (.new WritableFile.empty)
      [firstPut.contents] = some w := ⟨_, WalWriter.appendAll_new _ _⟩
  obtain ⟨vs, disk, hrun, hcurrent, hrecover⟩ := recover_openStep (s := 0) (by decide)
  have hcurrent : (Dir.passedOver disk w.file.disk).disk.current.isSome := hcurrent
  have hscan : scanFiles 3 (Dir.passedOver disk w.file.disk).filenames
      ((({} : VersionSet).raiseNextFile.installRecovered {} 4 3 0).addLiveFiles ∅) =
        some (∅, [3, 5]) := by rfl
  obtain ⟨q, hreplay⟩ := Dir.recover_firstPut hw hcurrent hrecover hscan Dir.logs_passedOver
  refine ⟨w, vs, disk, _, hw, hrun, hreplay, rfl, _, ⟨true, ?_⟩, ⟨∅, hscan⟩, ?_⟩
  · rw [Dir.withCurrent, if_pos hcurrent]
    exact hrecover
  · have hbatches {number : Nat} (h : number ∈ [3, 5]) :
        (Dir.passedOver disk w.file.disk).batches .castagnoli number = some [firstPut] :=
      batches_single hw firstPut_contents_ne_nil length_firstPut (Dir.logs_passedOver number h).2
    have hsorted : [3, 5].mergeSort (· ≤ ·) = [3, 5] := List.mergeSort_of_pairwise (by decide)
    rw [hsorted, List.mapM_cons, hbatches List.mem_cons_self, List.mapM_cons,
      hbatches (List.mem_cons_of_mem 3 (List.mem_singleton_self 5))]
    rfl

/-- The number 5 is that of a log which was replayed, and `NewWritableFile` truncates the file. -/
theorem not_recover_keepsLogs :
    ∃ w vs disk r, WalWriter.appendAll .castagnoli (.new WritableFile.empty)
        [firstPut.contents] = some w ∧
      newDatabase.bind (applyAll [sessionOpen]) = some (vs, disk) ∧
      (Dir.passedOver disk w.file.disk).recover .castagnoli 8192 {} = some (.ok, r) ∧
      ∃ vs numbers logs, (Dir.passedOver disk w.file.disk).Replays .castagnoli vs numbers logs ∧
        ¬ (Dir.passedOver disk w.file.disk).KeepsLogs numbers r.versions := by
  obtain ⟨w, vs, disk, r, hw, hrun, hrecover, hnext, vs', hreplays⟩ := recover_passedOver
  refine ⟨w, vs, disk, r, hw, hrun, hrecover, vs', _, _, hreplays, fun hkeeps => ?_⟩
  have hlt : 5 % 2 ^ 32 < r.versions.newFileNumber.1 :=
    hkeeps.1 5 (List.mem_cons_of_mem 3 (List.mem_singleton_self 5))
  rw [hnext] at hlt
  exact absurd hlt (by decide)

end Yubindb
