import Yubindb.Db.NewDatabase
import Yubindb.Db.Reopen
import Yubindb.Db.SessionSteps
import Yubindb.Theory.Steps

/-!
# The logs of a session

The entries of `mem_` are in the log in use, those of `imm_` in one that `DeleteObsoleteFiles` keeps.
-/

namespace Yubindb

/-! ## Behind `Open` -/

namespace LogReplay
variable {C : Crc32c} {limit : Nat} {io : OpenIo} {dir : Dir} {r r' : LogReplay} {s : State}

theorem saveManifest_writeLevel0Table (mem : Memtable) :
    (r.writeLevel0Table io mem).2.saveManifest = r.saveManifest := by
  rw [writeLevel0Table]
  dsimp only
  split <;> rfl

theorem saveManifest_replayRecord (record : Bytes) (mem : Option Memtable)
    (hr : r.saveManifest = true) : (r.replayRecord limit io record mem).2.2.saveManifest = true := by
  rw [replayRecord]
  generalize WriteBatch.setContents record = batch
  rcases batch.insertInto (mem.getD {}) with ⟨s, mem⟩
  by_cases hs : s = .ok
  · simp only [hs, ne_eq, not_true_eq_false, if_false]
    by_cases hlimit : mem.approximateMemoryUsage > limit
    · simp only [if_pos hlimit, saveManifest_writeLevel0Table]
    · simp only [if_neg hlimit, hr]
  · simp only [if_pos hs, hr]

theorem saveManifest_replayBatches {batches : List WriteBatch} {mem : Option Memtable}
    (hr : r.saveManifest = true) (h : replayBatches limit io batches mem r = (s, r')) :
    r'.saveManifest = true := by
  induction batches generalizing mem r with
  | nil =>
    cases h
    exact hr
  | cons b batches ih =>
    have hrecord := @saveManifest_replayRecord limit io r b.contents mem hr
    rw [replayBatches] at h
    dsimp only at h
    split at h
    · cases h
      exact hrecord
    · exact ih hrecord h

end LogReplay

namespace Dir
variable {C : Crc32c} {limit : Nat} {io : OpenIo} {dir : Dir} {db : Opened}

theorem saveManifest_recover {r : LogReplay} (h : dir.recover C limit io = some (.ok, r)) :
    r.saveManifest = true := by
  obtain ⟨save, vs, _, _, hrecover, -, hlogs⟩ := recover_stages h
  obtain ⟨logs, -, hsave⟩ := LogReplay.recoverLogs_induct (fun _ r => r.saveManifest = true)
    (fun _ _ _ _ _ hr hreplay => LogReplay.saveManifest_replayBatches hr hreplay)
    (VersionSet.recover_ok hrecover).1 hlogs
  exact hsave

/-- A successful `Open` has applied an edit with the number of the new log, which was the last one
given out. -/
theorem open_logNumber (h : dir.open C limit io = some (.ok, some db)) :
    db.mem = {} ∧ db.versions.logNumber = db.logfilenum ∧
      db.logfilenum < db.versions.nextFileNumber ∧ db.versions.nextFileNumber < 2 ^ 64 := by
  obtain ⟨r, versions, disk, hrecover, rfl, happly⟩ := open_stages h
  rw [if_pos (saveManifest_recover hrecover)] at happly
  obtain ⟨⟨vs, disk', a⟩, hbegin, -⟩ := Option.map_eq_some_iff.mp happly
  have hguard := (VersionSet.beginApply_cases hbegin).2.1 _ rfl
  have hinstalls := VersionSet.logAndApply_installs happly
  refine ⟨rfl, (Option.some.inj hinstalls.logNumber).symm, ?_, ?_⟩
  · rw [hinstalls.nextFileNumber]
    exact hguard.2
  · rw [hinstalls.nextFileNumber]
    exact Nat.mod_lt _ (by decide)

end Dir

/-! ## The invariant -/

namespace Session

/-- A record that was appended is in the log in use. -/
def AppendedTo (st : Session) : WriterPc → Prop
  | .logged statue log updates _ =>
    log = st.db.logfilenum ∧ (statue = .ok → ∀ p ∈ logEntries log updates, p ∈ st.received)
  | _ => True

/-- A flush has an `imm_`, and its edit the number of the log in use. -/
def Flushes (st : Session) : BackgroundPc → Prop
  | .idle => True
  | .building _ => st.db.imm.isSome
  | .applying a => st.db.imm.isSome ∧ a.edit.logNumber = some st.db.logfilenum

/-- The entries of the two memtables are in logs that are kept. -/
structure LogsKept (st : Session) : Prop where
  nextFileNumber_lt : st.db.versions.nextFileNumber < 2 ^ 64
  logfilenum_lt : st.db.versions.nextFileNumber ≠ 0 →
    st.db.logfilenum < st.db.versions.nextFileNumber
  logNumber_le : st.db.versions.logNumber ≤ st.db.logfilenum
  mem : st.db.mem = .ofEntries (st.memLog.map Prod.snd)
  imm : ∀ imm ∈ st.db.imm, imm = .ofEntries (st.immLog.map Prod.snd)
  memLog : ∀ p ∈ st.memLog, p ∈ st.received ∧ p.1 = st.db.logfilenum
  immLog : ∀ p ∈ st.immLog, p ∈ st.received ∧ st.db.versions.logNumber ≤ p.1
  noImm : st.db.imm = none → st.immLog = []
  writer : st.AppendedTo st.writer
  background : st.Flushes st.background

variable {limit : Nat} {create appended synced result : State} {followers : List Writer}
  {fileSize : ℕ+} {shuttingDown : Bool} {io : ManifestIo} {filenames : List FileName}
  {st st' : Session}

theorem logsKept_opened {C : Crc32c} {openIo : OpenIo} {dir : Dir} {db : Opened}
    (h : dir.open C limit openIo = some (.ok, some db)) : LogsKept (opened db) := by
  obtain ⟨hmem, hlog, hlt, hnext⟩ := Dir.open_logNumber h
  exact
    { nextFileNumber_lt := hnext
      logfilenum_lt := fun _ => hlt
      logNumber_le := hlog.le
      mem := hmem
      imm := fun _ h => nomatch h
      memLog := fun _ h => nomatch h
      immLog := fun _ h => nomatch h
      noImm := fun _ => rfl
      writer := trivial
      background := trivial }

theorem map_snd_logEntries (log : Nat) (updates : WriteBatch) :
    (logEntries log updates).map Prod.snd = updates.entries := by
  rw [logEntries, List.map_map]
  exact List.map_id _

theorem LogsKept.idle (h : LogsKept st) (himm : st.db.imm = none) : st.background = .idle := by
  have hflush := h.background
  cases hbackground : st.background with
  | idle => rfl
  | building num =>
    rw [hbackground, Flushes, himm] at hflush
    cases hflush
  | applying a =>
    rw [hbackground, Flushes, himm] at hflush
    cases hflush.1

/-- Numbers that are given out are above that of the log in use. -/
theorem LogsKept.advances {vs : VersionSet} (h : LogsKept st) (hvs : st.db.versions.Advances vs) :
    vs.nextFileNumber < 2 ^ 64 ∧
      (vs.nextFileNumber ≠ 0 → st.db.logfilenum < vs.nextFileNumber) ∧
      vs.logNumber = st.db.versions.logNumber := by
  rcases hvs with rfl | ⟨hne, rfl⟩
  · exact ⟨h.nextFileNumber_lt, h.logfilenum_lt, rfl⟩
  · have hlt := h.logfilenum_lt hne
    have hnext := h.nextFileNumber_lt
    refine ⟨Nat.mod_lt _ (by decide), fun hne' => ?_, rfl⟩
    simp only [VersionSet.newFileNumber] at hne' ⊢
    omega

theorem LogsKept.roomStep (h : LogsKept st)
    (hstep : st.roomStep limit create followers = some st') : LogsKept st' := by
  obtain ⟨fnt, hfnt, ⟨-, vs, -, hvs, rfl⟩ | rfl | rfl | ⟨himm, hne, rfl⟩⟩ := roomStep_cases hstep
  · obtain ⟨hbound, hlt, hlog⟩ := h.advances hvs
    exact { h with
      nextFileNumber_lt := hbound
      logfilenum_lt := hlt
      logNumber_le := hlog.le.trans h.logNumber_le
      immLog := fun p hp => ⟨(h.immLog p hp).1, hlog.le.trans (h.immLog p hp).2⟩
      writer := trivial
      background := h.background }
  · exact { h with writer := trivial, background := h.background }
  · exact h
  · -- the log in use and `mem_` are new, and `imm_` was empty
    have hlt := h.logfilenum_lt hne
    have hnext := h.nextFileNumber_lt
    refine
      { nextFileNumber_lt := Nat.mod_lt _ (by decide)
        logfilenum_lt := ?_
        logNumber_le := h.logNumber_le.trans hlt.le
        mem := rfl
        imm := fun imm himm => (Option.some.inj himm).symm.trans h.mem
        memLog := fun _ h => nomatch h
        immLog := fun p hp =>
          ⟨(h.memLog p hp).1, h.logNumber_le.trans (h.memLog p hp).2.ge⟩
        noImm := fun h => nomatch h
        writer := ?_
        background := ?_ }
    · intro hne'
      simp only [VersionSet.newFileNumber] at hne' ⊢
      omega
    · show AppendedTo _ st.writer
      rw [hfnt]
      trivial
    · show Flushes _ st.background
      rw [h.idle himm]
      trivial

theorem LogsKept.appendStep (h : LogsKept st) (hstep : st.appendStep appended synced = some st') :
    LogsKept st' := by
  obtain ⟨sync, updates, lastSequence, -, ⟨statue, hno, rfl⟩ | ⟨statue, rfl⟩⟩ :=
    appendStep_cases hstep
  · exact { h with
      writer := ⟨rfl, fun hok => absurd hok hno⟩
      background := h.background }
  · exact { h with
      memLog := fun p hp => ⟨List.mem_append_left _ (h.memLog p hp).1, (h.memLog p hp).2⟩
      immLog := fun p hp => ⟨List.mem_append_left _ (h.immLog p hp).1, (h.immLog p hp).2⟩
      writer := ⟨rfl, fun _ p hp => List.mem_append_right _ hp⟩
      background := h.background }

theorem LogsKept.insertStep (h : LogsKept st) (hstep : st.insertStep = some st') :
    LogsKept st' := by
  obtain ⟨statue, log, updates, lastSequence, hlogged, ⟨-, rfl⟩ | ⟨rfl, rfl⟩⟩ :=
    insertStep_cases hstep
  · exact { h with writer := trivial, background := h.background }
  · have hwriter := h.writer
    rw [hlogged] at hwriter
    obtain ⟨rfl, hreceived⟩ := hwriter
    refine { h with mem := ?_, memLog := fun p hp => ?_, writer := trivial, background := h.background }
    · show updates.entries.foldl Memtable.add st.db.mem = _
      rw [h.mem, Memtable.ofEntries, Memtable.ofEntries, ← List.foldl_append, List.map_append,
        map_snd_logEntries]
    · rcases List.mem_append.mp hp with hp | hp
      · exact h.memLog p hp
      · obtain ⟨e, -, rfl⟩ := List.mem_map.mp hp
        exact ⟨hreceived rfl _ hp, rfl⟩

theorem LogsKept.publishStep (h : LogsKept st) (hstep : st.publishStep = some st') :
    LogsKept st' := by
  obtain ⟨lastSequence, -, rfl⟩ := publishStep_cases hstep
  exact { h with writer := trivial, background := h.background }

theorem LogsKept.buildStep (h : LogsKept st) (hstep : st.buildStep = some st') : LogsKept st' := by
  obtain ⟨-, himm, hne, rfl⟩ := buildStep_cases hstep
  obtain ⟨hbound, hlt, hlog⟩ := h.advances (.inr ⟨hne, rfl⟩)
  exact { h with
    nextFileNumber_lt := hbound
    logfilenum_lt := hlt
    writer := h.writer
    background := himm }

theorem LogsKept.failFlush (h : LogsKept st) (s : State) : LogsKept (st.failFlush s) :=
  { h with writer := h.writer, background := trivial }

theorem LogsKept.builtStep (h : LogsKept st)
    (hstep : st.builtStep result fileSize shuttingDown io = some st') : LogsKept st' := by
  obtain ⟨num, imm, -, himm, ⟨contents, s, -, rfl⟩ | ⟨vs, disk, a, hbegin, rfl⟩⟩ :=
    builtStep_cases hstep
  · have hbuilt : LogsKept { st with tables := Function.update st.tables num contents } :=
      { h with writer := h.writer, background := h.background }
    exact hbuilt.failFlush s
  · obtain ⟨hbegins, -, hedit, -⟩ := VersionSet.beginApply_cases hbegin
    exact { h with
      nextFileNumber_lt := hbegins.nextFileNumber.trans_lt h.nextFileNumber_lt
      logfilenum_lt := by
        show vs.nextFileNumber ≠ 0 → _ < vs.nextFileNumber
        rw [hbegins.nextFileNumber]
        exact h.logfilenum_lt
      logNumber_le := hbegins.logNumber.trans_le h.logNumber_le
      immLog := fun p hp => ⟨(h.immLog p hp).1, hbegins.logNumber.trans_le (h.immLog p hp).2⟩
      writer := h.writer
      background := ⟨Option.isSome_of_eq_some himm, by rw [hedit]; rfl⟩ }

theorem LogsKept.appliedStep (h : LogsKept st) (hstep : st.appliedStep io filenames = some st') :
    LogsKept st' := by
  obtain ⟨a, happlying, ⟨s, disk, -, rfl⟩ | ⟨deleted, disk, -, -, rfl⟩⟩ := appliedStep_cases hstep
  · have happlied : LogsKept { st with
        db := { st.db with versions := { st.db.versions with descriptorLog := none } }
        disk } := { h with writer := h.writer, background := h.background }
    exact happlied.failFlush s
  · have hflush := h.background
    rw [happlying] at hflush
    have hlog : (st.db.versions.finishApply disk a .ok).1.logNumber = st.db.logfilenum := by
      rw [VersionSet.finishApply, if_pos rfl, hflush.2]
      rfl
    exact { h with
      nextFileNumber_lt := h.nextFileNumber_lt
      logfilenum_lt := h.logfilenum_lt
      logNumber_le := hlog.le
      imm := fun _ himm => absurd himm (Option.not_mem_none _)
      immLog := List.forall_mem_nil _
      noImm := fun _ => rfl
      writer := h.writer
      background := trivial }

theorem LogsKept.step {action : Action} (h : LogsKept st) (hstep : step limit action st = some st') :
    LogsKept st' := by
  cases action with
  | call fnt =>
    obtain ⟨-, rfl⟩ := callStep_cases hstep
    exact { h with writer := trivial, background := h.background }
  | room create followers => exact h.roomStep hstep
  | append appended synced => exact h.appendStep hstep
  | insert => exact h.insertStep hstep
  | publish => exact h.publishStep hstep
  | build => exact h.buildStep hstep
  | built result fileSize shuttingDown io => exact h.builtStep hstep
  | applied io filenames => exact h.appliedStep hstep

theorem LogsKept.steps {P : Session → Action → Prop} (h : LogsKept st)
    (hrun : Steps (Session.step limit) P st st') : LogsKept st' :=
  hrun.invariant (fun _ _ _ _ hstep hinv => hinv.step hstep) h

/-- In every state of a session, the entries of `mem_` and `imm_` are in logs that were appended to and
that `DeleteObsoleteFiles` does not delete. -/
theorem logNumber_le_log {C : Crc32c} {openIo : OpenIo} {dir : Dir} {db : Opened}
    (hopen : dir.open C limit openIo = some (.ok, some db))
    (hrun : Steps (Session.step limit) (fun _ _ => True) (opened db) st) :
    st.db.mem = .ofEntries (st.memLog.map Prod.snd) ∧
      (∀ imm ∈ st.db.imm, imm = .ofEntries (st.immLog.map Prod.snd)) ∧
      ∀ p ∈ st.memLog ++ st.immLog, p ∈ st.received ∧ st.db.versions.logNumber ≤ p.1 := by
  have h := (logsKept_opened hopen).steps hrun
  refine ⟨h.mem, h.imm, fun p hp => ?_⟩
  rcases List.mem_append.mp hp with hp | hp
  · obtain ⟨hreceived, hlog⟩ := h.memLog p hp
    exact ⟨hreceived, h.logNumber_le.trans hlog.ge⟩
  · exact h.immLog p hp

end Session
end Yubindb
