import Yubindb.Db.ManifestRecovery
import Yubindb.Db.Session

/-!
# What the steps of a session do

For each step of the writer and of the background thread, the states that it can lead to.
-/

namespace Yubindb

namespace VersionSet
variable {vs vs' : VersionSet} {disk disk' : Disk} {edit : VersionEdit} {io : ManifestIo}
  {a : Applying}

/-- At most one file number is given out, which is not 0. -/
def Advances (vs vs' : VersionSet) : Prop :=
  vs' = vs ∨ vs.nextFileNumber ≠ 0 ∧ vs' = vs.newFileNumber.2

/-- `LogAndApply` has done nothing yet that shows, up to the point where it releases the mutex. -/
structure Begins (vs vs' : VersionSet) : Prop where
  nextFileNumber : vs'.nextFileNumber = vs.nextFileNumber
  lastSequence : vs'.lastSequence = vs.lastSequence
  logNumber : vs'.logNumber = vs.logNumber
  versionlist : vs'.versionlist = vs.versionlist
  files : vs'.nowversion.files = vs.nowversion.files

theorem beginApply_cases (h : vs.beginApply disk edit io = some (vs', disk', a)) :
    vs.Begins vs' ∧ (∀ n ∈ edit.logNumber, n ≥ vs.logNumber ∧ n < vs.nextFileNumber) ∧
      a.edit = vs.completeEdit edit ∧
      (({ base := vs.nowversion } : Builder).apply a.edit).saveTo = some a.v := by
  rw [beginApply] at h
  split at h
  · next hguard =>
    obtain ⟨⟨vs₂, v⟩, hstage, h⟩ := Option.map_eq_some_iff.mp h
    obtain ⟨_, hv, hstage⟩ := Option.map_eq_some_iff.mp hstage
    cases hstage
    have hopen (cp : Level → Bytes) :=
      ({ vs with compactPointer := cp }.finalize v).openManifest_fst disk io
    obtain ⟨d, hd⟩ := hopen (Builder.applyCompactPointers (vs.completeEdit edit) vs.compactPointer)
    have hvs := congrArg Prod.fst h
    have ha := congrArg (fun r => r.2.2) h
    dsimp only at hvs ha
    rw [hd] at hvs
    rw [← hvs, ← ha]
    exact ⟨⟨rfl, rfl, rfl, rfl, rfl⟩, hguard, rfl, hv⟩
  · cases h

end VersionSet

namespace DBImpl

/-- A turn of the loop of `MakeRoomForwrite`. -/
theorem makeRoomTurn_cases (limit : Nat) (create : Nat → State) (db : DBImpl) :
    (∃ s vs, db.versions.Advances vs ∧
      db.makeRoomTurn limit create = (.leave s, { db with versions := vs })) ∨
    db.makeRoomTurn limit create = (.delay, db) ∨
    db.makeRoomTurn limit create = (.wait, db) ∨
    db.makeRoomTurn limit create = (.abort, db) ∨
    (db.imm = none ∧ db.versions.nextFileNumber ≠ 0 ∧
      db.makeRoomTurn limit create = (.rotated, { db with
        versions := db.versions.newFileNumber.2
        logfilenum := db.versions.nextFileNumber
        imm := some db.mem
        mem := {} })) := by
  rw [makeRoomTurn]
  split
  · exact .inl ⟨_, _, .inl rfl, rfl⟩
  split
  · exact .inr (.inl rfl)
  split
  · exact .inl ⟨_, _, .inl rfl, rfl⟩
  split
  · exact .inr (.inr (.inl rfl))
  split
  · exact .inr (.inr (.inl rfl))
  next himm =>
  dsimp only
  split
  · exact .inr (.inr (.inr (.inl rfl)))
  next hnum =>
  split
  · exact .inl ⟨_, _, .inr ⟨hnum, rfl⟩, rfl⟩
  · exact .inr (.inr (.inr (.inr ⟨Option.not_isSome_iff_eq_none.mp himm, hnum, rfl⟩)))

/-- The turn that finds room. -/
theorem makeRoomTurn_leaves {limit : Nat} {create : Nat → State} {db : DBImpl}
    (hbg : db.bgError = .ok) (hfiles : db.versions.numLevelFiles 0 < kL0_SlowdownWrites)
    (hroom : db.mem.approximateMemoryUsage ≤ limit) :
    db.makeRoomTurn limit create = (.leave .ok, db) := by
  rw [makeRoomTurn, if_neg (not_not.mpr hbg), if_neg (Nat.not_le.mpr hfiles), if_pos hroom]

/-- The turn that makes a new log and a new memtable. -/
theorem makeRoomTurn_rotates {limit : Nat} {create : Nat → State} {db : DBImpl}
    (hbg : db.bgError = .ok) (hfiles : db.versions.numLevelFiles 0 < kL0_SlowdownWrites)
    (hfull : limit < db.mem.approximateMemoryUsage) (himm : db.imm = none)
    (hnum : db.versions.nextFileNumber ≠ 0) (hcreate : create db.versions.nextFileNumber = .ok) :
    db.makeRoomTurn limit create = (.rotated, { db with
      versions := db.versions.newFileNumber.2
      logfilenum := db.versions.nextFileNumber
      imm := some db.mem
      mem := {} }) := by
  have hstop : ¬ db.versions.numLevelFiles 0 ≥ kL0_StopWrites :=
    Nat.not_le.mpr (hfiles.trans (by decide))
  have hfst : db.versions.newFileNumber.1 = db.versions.nextFileNumber := rfl
  rw [makeRoomTurn, if_neg (not_not.mpr hbg), if_neg (Nat.not_le.mpr hfiles),
    if_neg (Nat.not_le.mpr hfull), if_neg hstop, if_neg (by rw [himm]; exact Bool.false_ne_true)]
  dsimp only
  rw [hfst, if_neg hnum, if_neg (not_not.mpr hcreate)]

end DBImpl

namespace Session
variable {limit : Nat} {create appended synced result : State} {followers : List Writer}
  {fileSize : ℕ+} {shuttingDown : Bool} {io : ManifestIo} {filenames : List FileName}
  {st st' : Session}

/-! ## The writer -/

theorem callStep_cases {fnt : Writer} (h : step limit (.call fnt) st = some st') :
    st.writer = .idle ∧ st' = { st with writer := .room fnt } := by
  rw [step] at h
  split at h
  · next hidle => exact ⟨hidle, (Option.some.inj h).symm⟩
  · cases h

theorem roomStep_cases (h : st.roomStep limit create followers = some st') :
    ∃ fnt, st.writer = .room fnt ∧
      ((∃ s vs, (st.db.makeRoomTurn limit fun _ => create).1 = .leave s ∧
          st.db.versions.Advances vs ∧ st' = { st with
          db := { st.db with versions := vs }
          writer := .ready fnt.sync
            ((buildBatchGroup fnt followers).setSequence (vs.lastSequence + 1))
            (addCount vs.lastSequence ((buildBatchGroup fnt followers).setSequence
              (vs.lastSequence + 1)).count) }) ∨
        st' = { st with writer := .threw } ∨ st' = st ∨
        (st.db.imm = none ∧ st.db.versions.nextFileNumber ≠ 0 ∧ st' = { st with
          db := { st.db with
            versions := st.db.versions.newFileNumber.2
            logfilenum := st.db.versions.nextFileNumber
            imm := some st.db.mem
            mem := {} }
          immLog := st.memLog
          memLog := [] })) := by
  rw [roomStep] at h
  split at h
  · next fnt hfnt =>
    refine ⟨fnt, hfnt, ?_⟩
    rcases st.db.makeRoomTurn_cases limit fun _ => create with
      ⟨s, vs, hvs, hturn⟩ | hturn | hturn | hturn | ⟨himm, hnum, hturn⟩ <;>
      rw [hturn] at h <;> cases h
    · exact .inl ⟨s, vs, congrArg Prod.fst hturn, hvs, rfl⟩
    · exact .inr (.inl rfl)
    · exact .inr (.inr (.inl rfl))
    · exact .inr (.inr (.inr ⟨himm, hnum, rfl⟩))
  · cases h

theorem roomStep_leaves {fnt : Writer} {s : State} {db : DBImpl} (hfnt : st.writer = .room fnt)
    (hturn : (st.db.makeRoomTurn limit fun _ => create) = (.leave s, db)) :
    st.roomStep limit create followers = some { st with
      db
      writer := .ready fnt.sync
        ((buildBatchGroup fnt followers).setSequence (db.versions.lastSequence + 1))
        (addCount db.versions.lastSequence ((buildBatchGroup fnt followers).setSequence
          (db.versions.lastSequence + 1)).count) } := by
  rw [roomStep, hfnt]
  dsimp only
  rw [hturn]

theorem roomStep_rotates {fnt : Writer} {db : DBImpl} (hfnt : st.writer = .room fnt)
    (hturn : (st.db.makeRoomTurn limit fun _ => create) = (.rotated, db)) :
    st.roomStep limit create followers =
      some { st with db, immLog := st.memLog, memLog := [] } := by
  rw [roomStep, hfnt]
  dsimp only
  rw [hturn]

theorem appendStep_cases (h : st.appendStep appended synced = some st') :
    ∃ sync updates lastSequence, st.writer = .ready sync updates lastSequence ∧
      ((∃ statue, statue ≠ .ok ∧ st' = { st with
          writer := .logged statue st.db.logfilenum updates lastSequence }) ∨
        ∃ statue, st' = { st with
          writer := .logged statue st.db.logfilenum updates lastSequence
          received := st.received ++ logEntries st.db.logfilenum updates }) := by
  rw [appendStep] at h
  split at h
  · next sync updates lastSequence hready =>
    refine ⟨sync, updates, lastSequence, hready, ?_⟩
    cases h
    by_cases hok : appended = .ok
    · rw [if_pos hok]
      exact .inr ⟨_, rfl⟩
    · rw [if_neg hok, if_neg fun h => hok h.1]
      exact .inl ⟨appended, hok, rfl⟩
  · cases h

theorem insertStep_cases (h : st.insertStep = some st') :
    ∃ statue log updates lastSequence, st.writer = .logged statue log updates lastSequence ∧
      (statue ≠ .ok ∧ st' = { st with writer := .inserted lastSequence } ∨
        statue = .ok ∧ st' = { st with
          db := { st.db with mem := updates.entries.foldl Memtable.add st.db.mem }
          writer := .inserted lastSequence
          memLog := st.memLog ++ logEntries log updates }) := by
  rw [insertStep] at h
  split at h
  · next statue log updates lastSequence hlogged =>
    refine ⟨statue, log, updates, lastSequence, hlogged, ?_⟩
    split at h
    · next hok =>
      cases h
      rw [WriteBatch.insertInto_snd]
      exact .inr ⟨hok, rfl⟩
    · next hok =>
      cases h
      exact .inl ⟨hok, rfl⟩
  · cases h

theorem publishStep_cases (h : st.publishStep = some st') :
    ∃ lastSequence, st.writer = .inserted lastSequence ∧ st' = { st with
      db := { st.db with versions := st.db.versions.setLastSequence lastSequence }
      writer := .idle } := by
  rw [publishStep] at h
  split at h
  · next lastSequence hinserted =>
    cases h
    exact ⟨lastSequence, hinserted, rfl⟩
  · cases h

/-! ## The background thread -/

theorem buildStep_cases (h : st.buildStep = some st') :
    st.background = .idle ∧ st.db.imm.isSome ∧ st.db.versions.nextFileNumber ≠ 0 ∧ st' = { st with
      db := { st.db with versions := st.db.versions.newFileNumber.2 }
      background := .building st.db.versions.nextFileNumber } := by
  rw [buildStep] at h
  split at h
  · next hidle =>
    split at h
    · next hwork =>
      dsimp only at h
      split at h
      · cases h
      · next hnum =>
        cases h
        exact ⟨hidle, hwork.2, hnum, rfl⟩
    · cases h
  · cases h

theorem builtStep_cases (h : st.builtStep result fileSize shuttingDown io = some st') :
    ∃ num imm, st.background = .building num ∧ st.db.imm = some imm ∧
      ((∃ contents s, s ≠ .ok ∧
          st' = failFlush s { st with tables := Function.update st.tables num contents }) ∨
        ∃ vs disk a, st.db.versions.beginApply st.disk
            ((({} : VersionEdit).addFile 0 (imm.fileMate num fileSize)).setLogNumber
              st.db.logfilenum) io = some (vs, disk, a) ∧
          st' = { st with
            db := { st.db with versions := vs }
            disk
            tables := Function.update st.tables num (some imm.flushlevel0fromskip)
            background := .applying a }) := by
  rw [builtStep] at h
  split at h
  · next num imm hbuilding himm =>
    refine ⟨num, imm, hbuilding, himm, ?_⟩
    dsimp only at h
    split at h
    · rw [if_pos (by decide)] at h
      cases h
      exact .inl ⟨_, .ioError, by decide, rfl⟩
    split at h
    · next hs =>
      cases h
      exact .inl ⟨_, result, hs, rfl⟩
    · next hs =>
      rw [if_pos (not_not.mp hs)] at h
      obtain ⟨⟨vs, disk, a⟩, hbegin, h⟩ := Option.map_eq_some_iff.mp h
      cases h
      exact .inr ⟨vs, disk, a, hbegin, rfl⟩
  · cases h

theorem appliedStep_cases (h : st.appliedStep io filenames = some st') :
    ∃ a, st.background = .applying a ∧
      ((∃ s disk, s ≠ .ok ∧ st' = failFlush s { st with
          db := { st.db with versions := { st.db.versions with descriptorLog := none } }
          disk }) ∨
        ∃ deleted disk, (st.db.versions.writeManifest st.disk a io).1 = .ok ∧
          ({ bgError := st.db.bgError
             versions := (st.db.versions.finishApply disk a .ok).1 } : FilesInUse).deleteObsoleteFiles
              filenames = some deleted ∧
          st' = { st with
            db := { st.db with versions := (st.db.versions.finishApply disk a .ok).1, imm := none }
            disk
            immLog := []
            tables := fun num => if tableFileName num ∈ deleted then none else st.tables num
            background := .idle }) := by
  rw [appliedStep] at h
  split at h
  · next a happlying =>
    refine ⟨a, happlying, ?_⟩
    dsimp only at h
    split at h
    · next hs =>
      cases h
      rw [VersionSet.finishApply, if_neg hs]
      exact .inl ⟨_, _, hs, rfl⟩
    · next hs =>
      rw [not_not.mp hs] at h
      obtain ⟨deleted, hdeleted, h⟩ := Option.map_eq_some_iff.mp h
      cases h
      exact .inr ⟨deleted, _, not_not.mp hs, hdeleted, rfl⟩
  · cases h

end Session
end Yubindb
