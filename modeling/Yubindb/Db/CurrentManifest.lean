import Yubindb.Db.CompactionTrigger
import Yubindb.Db.LogRoundTrip

/-!
# The manifest that `CURRENT` names

The file operations of `LogAndApply` one by one, and what a recovery would read between two of them: of
the bytes of a manifest `Reader` returns the records only while they stay in their blocks.
-/

namespace Yubindb
open VersionSet

/-! ## What a recovery reads -/

/-- `Recover` with its `Reader`, on the bytes that `walWriter` has made of the records; nothing when
`SaveTo` aborts or the reader runs off the end of `ReadPhysicalRecord`. -/
def VersionSet.recoverRead (C : Crc32c) (vs : VersionSet) (disk : Disk) :
    Option (State × Bool × VersionSet) :=
  match disk.current with
  | none => some (.ioError, false, vs)
  | some current =>
    if current.getLast? ≠ some '\n' then some (.corruption, false, vs)
    else
      match disk.manifests current.dropLast with
      | none => some (.ioError, false, vs)
      | some records => do
        let read ← Reader.readRecords C (.new ⟨logBytes C records⟩ true 0)
        finishRecover vs (vs.replay read)

namespace VersionSet
variable {C : Crc32c} {vs vs' : VersionSet} {disk : Disk} {name : FileName} {records : List Bytes}

theorem recoverRead_manifest (C : Crc32c) (hcurrent : disk.current = some (name ++ ['\n']))
    (hmanifest : disk.manifests name = some records) (vs : VersionSet) :
    vs.recoverRead C disk = (Reader.readRecords C (.new ⟨logBytes C records⟩ true 0)).bind
      fun read => finishRecover vs (vs.replay read) := by
  rw [recoverRead, hcurrent]
  dsimp only
  rw [List.getLast?_concat, List.dropLast_concat, hmanifest]
  rfl

/-- Records that stay in their blocks are read back as they were appended. -/
theorem recoverRead_eq (C : Crc32c) (hcurrent : disk.current = some (name ++ ['\n']))
    (hmanifest : disk.manifests name = some records) (hne : ∀ str ∈ records, str ≠ [])
    (hblocks : FitsBlocks kBlockSize records) (vs : VersionSet) :
    vs.recoverRead C disk = vs.recover disk := by
  have hstored : stored records = records := List.filter_eq_self.mpr fun str hstr =>
    decide_eq_true (hne str hstr)
  have hread := (readRecords_logBytes_iff C records).mpr (hstored.symm ▸ hblocks)
  rw [recoverRead_manifest C hcurrent hmanifest, hread, hstored, recover_eq hcurrent hmanifest,
    Option.bind_some]

/-- What is recovered, is recovered of some records. -/
theorem exists_recover_eq {result : State × Bool × VersionSet}
    (h : vs.recoverRead C disk = some result) : ∃ disk' : Disk, vs.recover disk' = some result := by
  cases hcurrent : disk.current with
  | none =>
    rw [recoverRead, hcurrent] at h
    exact ⟨{}, h⟩
  | some current =>
    rw [recoverRead, hcurrent] at h
    dsimp only at h
    split at h
    · next hline =>
      refine ⟨{ current := some current }, ?_⟩
      rw [recover]
      dsimp only
      rw [if_pos hline, h]
    · next hline =>
      cases hmanifest : disk.manifests current.dropLast with
      | none =>
        rw [hmanifest] at h
        refine ⟨{ current := some current }, ?_⟩
        rw [recover]
        dsimp only
        rw [if_neg hline]
        exact h
      | some records =>
        rw [hmanifest] at h
        obtain ⟨read, -, h⟩ := Option.bind_eq_some_iff.mp h
        refine ⟨{ current := some current, manifests := fun _ => some read }, ?_⟩
        rw [recover]
        dsimp only
        rw [if_neg hline, h]

end VersionSet

/-! ## File operations -/

/-- The file operations of `LogAndApply` that change what a recovery reads; `SetCurrentFile` is the
renaming at its end. -/
inductive DiskOp where
  | create (name : FileName)
  | appendRecord (name : FileName) (record : Bytes)
  | setCurrentFile (number : Nat)
  | delete (name : FileName)

namespace DiskOp

def run (disk : Disk) : DiskOp → Disk
  | create name => disk.create name
  | appendRecord name record => disk.appendRecord name record
  | setCurrentFile number => disk.setCurrentFile number
  | delete name => disk.delete name

/-- The operation is on the manifest with this name. -/
def On (name : FileName) : DiskOp → Prop
  | create n | appendRecord n _ | delete n => n = name
  | setCurrentFile _ => False

variable {op : DiskOp} {name : FileName} {disk : Disk}

theorem On.current (h : op.On name) : (op.run disk).current = disk.current := by
  cases op with
  | create n => rfl
  | appendRecord n record => rfl
  | setCurrentFile number => exact h.elim
  | delete n => rfl

theorem On.manifests (h : op.On name) {other : FileName} (hne : other ≠ name) :
    (op.run disk).manifests other = disk.manifests other := by
  cases op with
  | setCurrentFile number => exact h.elim
  | create n | appendRecord n record | delete n =>
    cases h
    exact Function.update_of_ne hne _ _

end DiskOp

namespace Disk
variable {disk disk' : Disk} {ops : List DiskOp} {op : DiskOp} {name : FileName}
  {files : LevelFiles}

/-- The directory before the operations, between them and behind them. -/
def points (disk : Disk) (ops : List DiskOp) : List Disk := ops.scanl DiskOp.run disk

/-- The directory behind the operations. -/
def after (disk : Disk) (ops : List DiskOp) : Disk := ops.foldl DiskOp.run disk

theorem after_append (disk : Disk) (ops ops' : List DiskOp) :
    disk.after (ops ++ ops') = (disk.after ops).after ops' := List.foldl_append

theorem after_mem_points (disk : Disk) (ops : List DiskOp) : disk.after ops ∈ disk.points ops :=
  List.mem_of_getLast? List.getLast?_scanl

theorem mem_points_append_singleton (h : disk' ∈ disk.points (ops ++ [op])) :
    disk' ∈ disk.points ops ∨ disk' = disk.after (ops ++ [op]) := by
  rw [points, List.scanl_append, List.scanl_singleton, List.tail_cons] at h
  refine (List.mem_append.mp h).imp_right fun h => ?_
  rw [List.mem_singleton.mp h, after, List.foldl_append]
  rfl

/-- A recovery reads the same from both. -/
structure SameCurrent (disk disk' : Disk) : Prop where
  current : disk'.current = disk.current
  manifest : ∀ name, disk.current = some (name ++ ['\n']) →
    disk'.manifests name = disk.manifests name

theorem SameCurrent.refl (disk : Disk) : disk.SameCurrent disk := ⟨rfl, fun _ _ => rfl⟩

theorem SameCurrent.recoverRead_eq (h : disk.SameCurrent disk') (C : Crc32c) (vs : VersionSet) :
    vs.recoverRead C disk' = vs.recoverRead C disk := by
  rw [recoverRead, recoverRead, h.current]
  cases hcurrent : disk.current with
  | none => rfl
  | some current =>
    dsimp only
    split
    · rfl
    · next hlast =>
      have hname : current = current.dropLast ++ ['\n'] :=
        (List.dropLast_append_getLast? _ (not_not.mp hlast)).symm
      rw [h.manifest current.dropLast (hcurrent.trans (congrArg some hname))]

/-- Operations on another manifest than the one that `CURRENT` names. -/
theorem sameCurrent_points (hops : ∀ op ∈ ops, op.On name)
    (hname : disk.current ≠ some (name ++ ['\n'])) :
    ∀ disk' ∈ disk.points ops, disk.SameCurrent disk' := by
  suffices ∀ d, disk.SameCurrent d → ∀ disk' ∈ d.points ops, disk.SameCurrent disk' from
    this disk (.refl disk)
  induction ops with
  | nil =>
    intro d hd disk' hmem
    exact List.mem_singleton.mp hmem ▸ hd
  | cons op ops ih =>
    obtain ⟨hop, hops⟩ := List.forall_mem_cons.mp hops
    intro d hd disk' hmem
    rw [points, List.scanl_cons] at hmem
    rcases List.mem_cons.mp hmem with rfl | hmem
    · exact hd
    · refine ih hops (op.run d) ⟨hop.current.trans hd.current, fun n hn => ?_⟩ disk' hmem
      have hne : n ≠ name := fun heq => hname (heq ▸ hn)
      exact (hop.manifests hne).trans (hd.manifest n hn)

/-- The manifest that `CURRENT` names exists, and what is read of it replays to a version with these
files. -/
def Replays (C : Crc32c) (disk : Disk) (files : LevelFiles) : Prop :=
  ∃ vs, recoverRead C {} disk = some (.ok, true, vs) ∧ vs.versionlist.head? = some files

variable {C : Crc32c}

theorem Replays.of_sameCurrent (h : disk.Replays C files) (hsame : disk.SameCurrent disk') :
    disk'.Replays C files := by
  obtain ⟨vs, hrecover, hfiles⟩ := h
  exact ⟨vs, (hsame.recoverRead_eq C {}).trans hrecover, hfiles⟩

/-- Behind the truncation of the manifest that `CURRENT` names, nothing replays. -/
theorem not_replays_create (h : disk.current = some (name ++ ['\n'])) :
    ¬ (disk.create name).Replays C files := by
  rintro ⟨vs, hrecover, -⟩
  have hcurrent : (disk.create name).current = some (name ++ ['\n']) := h
  have hmanifest : (disk.create name).manifests name = some [] := Function.update_self ..
  -- in an empty file the reader runs off its end
  have hempty : Reader.readRecords C (.new ⟨logBytes C []⟩ true 0) = none :=
    (readRecords_emission C []).trans (if_pos rfl)
  rw [recoverRead_manifest C hcurrent hmanifest, hempty] at hrecover
  cases hrecover

/-- Nor behind its deletion. -/
theorem not_replays_of_manifest_eq_none (hcurrent : disk.current = some (name ++ ['\n']))
    (hnone : disk.manifests name = none) : ¬ disk.Replays C files := by
  rintro ⟨vs, hrecover, -⟩
  rw [recoverRead, hcurrent] at hrecover
  simp [hnone] at hrecover

theorem current_after (hops : ∀ op ∈ ops, op.On name) : (disk.after ops).current = disk.current := by
  induction ops generalizing disk with
  | nil => rfl
  | cons op ops ih =>
    obtain ⟨hop, hops⟩ := List.forall_mem_cons.mp hops
    exact (ih hops).trans hop.current

end Disk

namespace VersionSet
open Builder

/-! ## The operations of a call -/

/-- The operations of `openManifest`. -/
def openOps (vs : VersionSet) (io : ManifestIo) : List DiskOp :=
  match vs.descriptorLog with
  | some _ => []
  | none =>
    let name := descriptorFileName vs.manifestFileNumber
    if io.newWritableFile ≠ .ok then []
    else if io.appendSnapshot ≠ .ok then [.create name]
    else [.create name, .appendRecord name vs.snapshot.encodeTo]

/-- The operations of `writeManifest`. -/
def writeOps (vs : VersionSet) (a : Applying) (io : ManifestIo) : List DiskOp :=
  if a.s ≠ .ok then []
  else if io.appendEdit ≠ .ok then []
  else
    let append := vs.descriptorLog.toList.map fun name => .appendRecord name a.edit.encodeTo
    if io.sync ≠ .ok then append
    else if a.newManifest = none then append
    else if io.setCurrentFile ≠ .ok then append
    else append ++ [.setCurrentFile vs.manifestFileNumber]

/-- The operations of `finishApply`. -/
def finishOps (a : Applying) (s : State) : List DiskOp :=
  if s = .ok then [] else a.newManifest.toList.map .delete

/-- The operations of `LogAndApply` behind its checks. -/
def fileOps (vs : VersionSet) (disk : Disk) (edit : VersionEdit) (io : ManifestIo) : List DiskOp :=
  match vs.stage (vs.completeEdit edit) with
  | none => []
  | some (staged, v) =>
    let (opened, disk, newManifest, s) := staged.openManifest disk io
    let a : Applying := ⟨vs.completeEdit edit, v, newManifest, s⟩
    staged.openOps io ++ opened.writeOps a io ++
      finishOps a (opened.writeManifest disk a io).1

variable {vs vs' : VersionSet} {disk disk' : Disk} {edit : VersionEdit} {io : ManifestIo} {s : State}
  {name : FileName}

theorem after_openOps : disk.after (vs.openOps io) = (vs.openManifest disk io).2.1 := by
  rw [openOps, openManifest]
  cases vs.descriptorLog with
  | some name => rfl
  | none =>
    dsimp only
    split
    · rfl
    · split <;> rfl

theorem after_writeOps {a : Applying} :
    disk.after (vs.writeOps a io) = (vs.writeManifest disk a io).2 := by
  rw [writeOps, writeManifest]
  cases vs.descriptorLog <;> split_ifs <;> rfl

theorem after_finishOps {a : Applying} : disk.after (finishOps a s) = (vs.finishApply disk a s).2 := by
  rw [finishOps, finishApply]
  split
  · rfl
  · cases a.newManifest <;> rfl

theorem stage_eq {v : Version}
    (hv : (({ base := vs.nowversion } : Builder).apply edit).saveTo = some v) :
    vs.stage edit = some ({ vs with
      compactPointer := applyCompactPointers edit vs.compactPointer }.finalize v, v) := by
  rw [stage, hv]
  rfl

/-- The operations lead to the directory that `LogAndApply` leaves. -/
theorem after_fileOps (h : vs.logAndApply disk edit io = some (s, vs', disk')) :
    disk.after (vs.fileOps disk edit io) = disk' := by
  obtain ⟨v, hv, hs, h⟩ := logAndApply_stage h
  rw [fileOps, stage_eq hv]
  dsimp only at h hs ⊢
  rw [Disk.after_append, Disk.after_append, after_openOps, after_writeOps, after_finishOps, ← hs]
  rw [← hs] at h
  exact (congrArg Prod.snd h).symm

theorem writeManifest_eq_ok {a : Applying} : (vs.writeManifest disk a io).1 = .ok ↔
    a.s = .ok ∧ io.appendEdit = .ok ∧ io.sync = .ok ∧
      (a.newManifest = none ∨ io.setCurrentFile = .ok) := by
  rw [writeManifest]
  split_ifs <;> simp_all

/-- With the manifest open, a call appends at most the record of its edit. -/
theorem fileOps_open (hopen : vs.descriptorLog = some name)
    (h : vs.logAndApply disk edit io = some (s, vs', disk')) :
    (s = .ok ↔ io.appendEdit = .ok ∧ io.sync = .ok) ∧
      vs.fileOps disk edit io =
        if io.appendEdit = .ok then [.appendRecord name (vs.completeEdit edit).encodeTo] else [] := by
  obtain ⟨v, hv, hs, -⟩ := logAndApply_stage h
  rw [fileOps, stage_eq hv]
  simp only [finalize, openManifest, openOps, hopen] at hs ⊢
  refine ⟨?_, ?_⟩
  · rw [hs, writeManifest_eq_ok]
    simp
  · simp [writeOps, finishOps]

/-- What `openManifest` does when there is no manifest. -/
theorem openManifest_create (disk : Disk) (io : ManifestIo) (hnone : vs.descriptorLog = none) :
    let name := descriptorFileName vs.manifestFileNumber
    let opened := vs.openManifest disk io
    (∀ n ∈ opened.1.descriptorLog, n = name) ∧ opened.2.2.1 = some name ∧
      (opened.2.2.2 = .ok → opened.1.descriptorLog = some name ∧
        vs.openOps io = [.create name, .appendRecord name vs.snapshot.encodeTo]) := by
  simp only [openManifest, openOps, hnone]
  split_ifs <;> simp_all

theorem on_openOps (hnone : vs.descriptorLog = none) :
    ∀ op ∈ vs.openOps io, op.On (descriptorFileName vs.manifestFileNumber) := by
  rw [openOps, hnone]
  dsimp only
  split_ifs <;> simp [DiskOp.On]

theorem on_writeOps {a : Applying} (hname : ∀ n ∈ vs.descriptorLog, n = name)
    (hnew : a.newManifest ≠ none) (hs : (vs.writeManifest disk a io).1 ≠ .ok) :
    ∀ op ∈ vs.writeOps a io, op.On name := by
  have happend : ∀ op ∈ vs.descriptorLog.toList.map fun n =>
      DiskOp.appendRecord n a.edit.encodeTo, op.On name := by
    intro op hop
    obtain ⟨n, hn, rfl⟩ := List.mem_map.mp hop
    exact hname n (Option.mem_toList.mp hn)
  rw [ne_eq, writeManifest_eq_ok] at hs
  rw [writeOps]
  split_ifs with h₁ h₂ h₃ h₄
  · exact List.forall_mem_nil _
  · exact List.forall_mem_nil _
  · exact happend
  · exact happend
  · exact absurd ⟨not_not.mp h₁, not_not.mp h₂, not_not.mp h₃, .inr (not_not.mp h₄)⟩ hs

theorem writeOps_of_ok {a : Applying} (hlog : vs.descriptorLog = some name)
    (hnew : a.newManifest ≠ none) (hs : (vs.writeManifest disk a io).1 = .ok) :
    vs.writeOps a io =
      [.appendRecord name a.edit.encodeTo, .setCurrentFile vs.manifestFileNumber] := by
  obtain ⟨hopen, happend, hsync, hset⟩ := writeManifest_eq_ok.mp hs
  simp [writeOps, hopen, happend, hsync, hset.resolve_left hnew, hnew, hlog]

theorem on_finishOps {a : Applying} (hname : ∀ n ∈ a.newManifest, n = name) :
    ∀ op ∈ finishOps a s, op.On name := by
  intro op hop
  rw [finishOps] at hop
  split at hop
  · cases hop
  · obtain ⟨n, hn, rfl⟩ := List.mem_map.mp hop
    exact hname n (Option.mem_toList.mp hn)

/-- Without one, a call creates it and makes `CURRENT` name it at the end, or fails and has done
nothing to other files. -/
theorem fileOps_create (hnone : vs.descriptorLog = none)
    (h : vs.logAndApply disk edit io = some (s, vs', disk')) :
    let name := descriptorFileName vs.manifestFileNumber
    (s = .ok → ∃ snap, (edit.compactPointers = [] → vs.snapshot.encodeTo = [] → snap = []) ∧
        vs.fileOps disk edit io = [.create name, .appendRecord name snap,
          .appendRecord name (vs.completeEdit edit).encodeTo] ++
            [.setCurrentFile vs.manifestFileNumber]) ∧
      (s ≠ .ok → ∀ op ∈ vs.fileOps disk edit io, op.On name) := by
  intro name
  obtain ⟨v, hv, hs, -⟩ := logAndApply_stage h
  rw [fileOps, stage_eq hv]
  let cp := applyCompactPointers (vs.completeEdit edit) vs.compactPointer
  let staged := { vs with compactPointer := cp }.finalize v
  have hstaged : staged.descriptorLog = none := hnone
  obtain ⟨hname, hnew, hok⟩ := openManifest_create disk io hstaged
  have hsome : (staged.openManifest disk io).2.2.1 ≠ none := hnew ▸ Option.some_ne_none _
  constructor
  · rintro rfl
    obtain ⟨hlog, hops⟩ := hok (writeManifest_eq_ok.mp hs.symm).1
    obtain ⟨d, hd⟩ := openManifest_fst staged disk io
    refine ⟨staged.snapshot.encodeTo, fun hptr hsnapshot => ?_, ?_⟩
    · have hcp : cp = vs.compactPointer := by
        simp only [cp, applyCompactPointers, completeEdit, hptr]
        rfl
      rw [← hsnapshot, show staged = { vs with compactPointer := cp }.finalize v from rfl, hcp]
      rfl
    · dsimp only
      rw [← hs, finishOps, if_pos rfl, List.append_nil, hops, writeOps_of_ok hlog hsome hs.symm, hd]
      rfl
  · intro hne op hop
    rcases List.mem_append.mp hop with hop | hop
    · rcases List.mem_append.mp hop with hop | hop
      · exact on_openOps hstaged op hop
      · exact on_writeOps hname hsome (hs ▸ hne) op hop
    · exact on_finishOps (fun n hn => Option.some.inj (hn.symm.trans hnew)) op hop

/-- A failed call deletes the manifest that it was to create. -/
theorem manifest_eq_none_of_failed (hnone : vs.descriptorLog = none)
    (h : vs.logAndApply disk edit io = some (s, vs', disk')) (hne : s ≠ .ok) :
    disk'.manifests (descriptorFileName vs.manifestFileNumber) = none := by
  obtain ⟨v, -, hs, h⟩ := logAndApply_stage h
  let staged := { vs with
    compactPointer := applyCompactPointers (vs.completeEdit edit) vs.compactPointer }.finalize v
  have hstaged : staged.descriptorLog = none := hnone
  have hnew : (staged.openManifest disk io).2.2.1 = _ := (openManifest_create disk io hstaged).2.1
  rw [finishApply, if_neg (hs ▸ hne)] at h
  obtain ⟨-, rfl⟩ := Prod.mk.inj h
  simp only [staged] at hnew
  rw [hnew]
  exact Function.update_self ..

/-! ## What a call leaves -/

/-- What a failed call keeps. -/
structure Retains (vs : VersionSet) (edit : VersionEdit) (vs' : VersionSet) : Prop where
  descriptorLog : vs'.descriptorLog = none
  manifestFileNumber : vs'.manifestFileNumber = vs.manifestFileNumber
  nextFileNumber : vs'.nextFileNumber = vs.nextFileNumber
  logNumber : vs'.logNumber = vs.logNumber
  files : vs'.nowversion.files = vs.nowversion.files
  compactPointer : edit.compactPointers = [] → vs'.compactPointer = vs.compactPointer

theorem logAndApply_retains (h : vs.logAndApply disk edit io = some (s, vs', disk'))
    (hne : s ≠ .ok) : vs.Retains edit vs' := by
  obtain ⟨v, -, rfl⟩ := logAndApply_eq_failed h hne
  refine ⟨rfl, rfl, rfl, rfl, rfl, fun hptr => ?_⟩
  simp only [finalize, applyCompactPointers, hptr]
  rfl

theorem openManifest_descriptorLog (h : (vs.openManifest disk io).2.2.2 = .ok) :
    (vs.openManifest disk io).1.descriptorLog =
      some (vs.descriptorLog.getD (descriptorFileName vs.manifestFileNumber)) := by
  cases hlog : vs.descriptorLog with
  | some name => simp [openManifest, hlog]
  | none => exact ((openManifest_create disk io hlog).2.2 h).1

theorem logAndApply_descriptorLog (h : vs.logAndApply disk edit io = some (.ok, vs', disk')) :
    vs'.manifestFileNumber = vs.manifestFileNumber ∧ vs'.descriptorLog =
      some (vs.descriptorLog.getD (descriptorFileName vs.manifestFileNumber)) := by
  obtain ⟨v, -, hs, h⟩ := logAndApply_stage h
  have hopen := (writeManifest_eq_ok.mp hs.symm).1
  rw [finishApply, if_pos hs.symm] at h
  obtain ⟨rfl, -⟩ := Prod.mk.inj h
  obtain ⟨d, hd⟩ := openManifest_fst ({ vs with
    compactPointer := applyCompactPointers (vs.completeEdit edit) vs.compactPointer }.finalize v) disk io
  exact ⟨(congrArg (·.manifestFileNumber) hd :), openManifest_descriptorLog hopen⟩

theorem snapshot_eq_nil (hptr : vs.compactPointer = fun _ => [])
    (hfiles : vs.nowversion.files = fun _ => []) : vs.snapshot.encodeTo = [] := by
  rw [snapshot, hptr, hfiles]
  rfl

/-! ## What `Recover` leaves -/

theorem Replay.records_numbers {r : Replay} (hlog : ∀ n ∈ r.logNumber, n < 2 ^ 64)
    (records : List Bytes) :
    (r.records records).compactPointer = r.compactPointer ∧
      ∀ n ∈ (r.records records).logNumber, n < 2 ^ 64 := by
  induction records generalizing r with
  | nil => exact ⟨rfl, hlog⟩
  | cons record records ih =>
    rw [Replay.records]
    split
    · obtain ⟨hptr, hnumber⟩ := VersionEdit.decodeFrom_numbers record
      have hcp : (r.record record).compactPointer = r.compactPointer := by
        simp [Replay.record, applyCompactPointers, hptr]
      rw [← hcp]
      refine ih fun n hn => ?_
      rw [Replay.record] at hn
      rcases Option.or_eq_some_iff.mp hn with hn | ⟨-, hn⟩
      · exact hnumber n hn
      · exact hlog n hn
    · exact ⟨rfl, hlog⟩

/-- What a recovery into a new version set installs. -/
theorem recover_installs {save : Bool} (h : recover {} disk = some (.ok, save, vs)) :
    vs.Bounded ∧ vs.descriptorLog = none ∧ (vs.compactPointer = fun _ => []) ∧
      vs.versionlist ≠ [] := by
  obtain ⟨-, records, v, nextFile, logNumber, lastSequence, -, hnumber, -, rfl⟩ := recover_ok h
  obtain ⟨hptr, hlog⟩ := Replay.records_numbers
    (r := { builder := { base := {} }, compactPointer := fun _ => [] })
    (fun n hn => absurd hn (Option.not_mem_none n)) records
  exact ⟨⟨Nat.mod_lt _ (by decide), hlog logNumber hnumber⟩, rfl, hptr, List.cons_ne_nil _ _⟩

end VersionSet

namespace Builder

theorem FreshFiles.foldl {b : Builder} {es edits : List VersionEdit}
    (h : b.FreshFiles (es ++ edits)) : (es.foldl Builder.apply b).FreshFiles edits := by
  induction es generalizing b with
  | nil => exact h
  | cons e es ih => exact ih h.apply

end Builder

/-- What one builder for all edits saves is what `LogAndApply` saves of the last of them. -/
theorem FreshNumbers.savedFiles {v : Version} {es : List VersionEdit} {e : VersionEdit}
    (h : FreshNumbers {} (es ++ [e]))
    (hv : v.files = (es.foldl Builder.apply { base := {} }).savedFiles) :
    ((es ++ [e]).foldl Builder.apply { base := {} }).savedFiles =
      (({ base := v } : Builder).apply e).savedFiles := by
  have hfresh : ({ base := {} } : Builder).FreshFiles (es ++ [e]) :=
    ⟨fun level f _ g hg => absurd hg List.not_mem_nil, fun level => h.once level⟩
  rw [List.foldl_append]
  refine funext fun level => Builder.savedFiles_apply ?_ hfresh.foldl hv
  rw [base_foldl_apply]
  exact .nil

theorem VersionSet.exists_carries (vs : VersionSet) (edit : VersionEdit) :
    ∃ w : VersionSet, w.Carries (vs.completeEdit edit) := by
  have hlog : (vs.completeEdit edit).logNumber = some (edit.logNumber.getD vs.logNumber) := by
    cases h : edit.logNumber <;> simp [completeEdit, h]
  exact ⟨{ vs with logNumber := edit.logNumber.getD vs.logNumber }, hlog, rfl, rfl⟩

/-! ## Sequences of calls -/

/-- A version set, its directory, and what its calls have done since `Recover`. -/
structure ManifestRun where
  versions : VersionSet
  disk : Disk
  /-- The files of the last version that was installed. -/
  installed : LevelFiles
  /-- The edits of the calls that succeeded. -/
  applied : List VersionEdit

/-- Behind `Recover`, which installs the version at the head of the list. -/
def ManifestRun.start (vs : VersionSet) (disk : Disk) : ManifestRun where
  versions := vs
  disk := disk
  installed := vs.versionlist.head?.getD fun _ => []
  applied := []

/-- The files of the version that a `LogAndApply` of the edit installs. -/
def ManifestRun.staged (r : ManifestRun) (edit : VersionEdit) : LevelFiles :=
  (({ base := r.versions.nowversion } : Builder).apply edit).savedFiles

/-- Behind a `LogAndApply` of the edit. -/
def ManifestRun.next (r : ManifestRun) (edit : VersionEdit) : State × VersionSet × Disk → ManifestRun
  | (s, vs, disk) =>
    if s = .ok then ⟨vs, disk, vs.nowversion.files, r.applied ++ [edit]⟩
    else ⟨vs, disk, r.installed, r.applied⟩

namespace ApplyCall

def step (c : ApplyCall) (r : ManifestRun) : Option ManifestRun :=
  ((c.prepare r.versions).logAndApply r.disk c.edit c.io).map (r.next (c.recorded r.versions))

/-- At every point of the call, a recovery would find the version that was installed last or the one
that the call installs; and behind the call, the former. -/
structure Replayable (C : Crc32c) (r : ManifestRun) (c : ApplyCall) (r' : ManifestRun) : Prop where
  points : ∀ disk ∈ r.disk.points ((c.prepare r.versions).fileOps r.disk c.edit c.io),
    disk.Replays C r.installed ∨ disk.Replays C (r.staged c.edit)
  after : r'.disk.Replays C r'.installed

/-- The call does not create a manifest under the name of the live one, does not fail to sync a record
of it, and its edit can be replayed: the records of the edits, this one the last, are read back whole. -/
structure Safe (r : ManifestRun) (c : ApplyCall) : Prop where
  create : r.versions.descriptorLog = none →
    r.disk.current ≠ some (descriptorFileName r.versions.manifestFileNumber ++ ['\n'])
  sync : r.versions.descriptorLog ≠ none → c.io.appendEdit = .ok → c.io.sync = .ok
  compactPointers : c.edit.compactPointers = []
  fresh : FreshNumbers {} (r.applied ++ [c.recorded r.versions])
  blocks : FitsBlocks kBlockSize ((r.applied ++ [c.recorded r.versions]).map VersionEdit.encodeTo)

end ApplyCall

/-- `CURRENT` names a replayable manifest at every point of the run. -/
def ManifestRun.AlwaysReplays (C : Crc32c) (r : ManifestRun) (calls : List ApplyCall) : Prop :=
  r.disk.Replays C r.installed ∧ EachStep ApplyCall.step (ApplyCall.Replayable C) calls r

namespace ManifestRun
variable {C : Crc32c} {r : ManifestRun} {vs vs' : VersionSet} {disk disk' : Disk} {edit : VersionEdit}
  {io : ManifestIo} {s : State}

/-- What safe calls keep: without a manifest, the version set has applied nothing or owns the live one;
with one, that is live and has the records of the edits. -/
structure Inv (C : Crc32c) (r : ManifestRun) : Prop where
  replays : r.disk.Replays C r.installed
  bounded : r.versions.Bounded
  compactPointer : r.versions.compactPointer = fun _ => []
  files : r.versions.nowversion.files = (r.applied.foldl Builder.apply { base := {} }).savedFiles
  records : ∀ e ∈ r.applied, e.Encodable ∧ e.compactPointers = []
  nonempty : ∀ e ∈ r.applied, e.encodeTo ≠ []
  closed : r.versions.descriptorLog = none → r.applied = [] ∨
    r.disk.current = some (descriptorFileName r.versions.manifestFileNumber ++ ['\n'])
  opened : r.versions.descriptorLog ≠ none → r.versions.Writes r.disk
    (descriptorFileName r.versions.manifestFileNumber) (r.applied.map VersionEdit.encodeTo)

theorem Inv.of_recover (h : recoverRead C {} disk = some (.ok, true, vs)) :
    (start vs disk).Inv C := by
  obtain ⟨disk', hrecover⟩ := exists_recover_eq h
  obtain ⟨hbounded, hlog, hptr, hne⟩ := recover_installs hrecover
  refine ⟨⟨vs, h, ?_⟩, hbounded, hptr, recover_files hrecover, fun e he => absurd he List.not_mem_nil,
    fun e he => absurd he List.not_mem_nil, fun _ => .inl rfl, fun hopen => absurd hlog hopen⟩
  obtain ⟨files, rest, hlist⟩ := List.exists_cons_of_ne_nil hne
  rw [start, hlist]
  rfl

theorem Inv.prepare (h : r.Inv C) (st : ApplyStep) :
    (ManifestRun.mk (st.prepare r.versions) r.disk r.installed r.applied).Inv C := by
  refine ⟨h.replays, ApplyStep.prepare_bounded h.bounded, ?_, ?_, h.records, h.nonempty, ?_, ?_⟩
  · exact (st.prepare_compactPointer _).trans h.compactPointer
  · exact (congrArg Version.files (st.prepare_nowversion _)).trans h.files
  · dsimp only
    rw [st.prepare_descriptorLog, st.prepare_manifestFileNumber]
    exact h.closed
  · dsimp only
    rw [st.prepare_descriptorLog, st.prepare_manifestFileNumber]
    exact fun hopen => ApplyStep.writes_prepare (h.opened hopen)

/-- The record of the edit is read back, and its files are new. -/
structure Accepts (r : ManifestRun) (edit : VersionEdit) : Prop where
  lastSequence : r.versions.lastSequence < 2 ^ 64
  encodable : edit.Encodable
  compactPointers : edit.compactPointers = []
  fresh : FreshNumbers {} (r.applied ++ [r.versions.completeEdit edit])
  blocks : FitsBlocks kBlockSize
    ((r.applied ++ [r.versions.completeEdit edit]).map VersionEdit.encodeTo)

/-- A failed call that leaves the live manifest alone. -/
theorem Inv.failed (h : r.Inv C)
    (happly : r.versions.logAndApply r.disk edit io = some (s, vs', disk')) (hne : s ≠ .ok)
    (hptr : edit.compactPointers = []) (hsame : r.disk.SameCurrent disk') :
    (ManifestRun.mk vs' disk' r.installed r.applied).Inv C := by
  have hkeeps := logAndApply_retains happly hne
  refine ⟨h.replays.of_sameCurrent hsame, ⟨?_, ?_⟩, ?_, ?_, h.records, h.nonempty, fun _ => ?_,
    fun hopen => absurd hkeeps.descriptorLog hopen⟩
  · exact hkeeps.nextFileNumber ▸ h.bounded.nextFileNumber
  · exact hkeeps.logNumber ▸ h.bounded.logNumber
  · exact (hkeeps.compactPointer hptr).trans h.compactPointer
  · exact hkeeps.files.trans h.files
  · rw [hkeeps.manifestFileNumber, hsame.current]
    by_cases hlog : r.versions.descriptorLog = none
    · exact h.closed hlog
    · exact .inr (h.opened hlog).current

theorem files_of_logAndApply
    (happly : r.versions.logAndApply r.disk edit io = some (.ok, vs', disk')) :
    vs'.nowversion.files = r.staged edit := by
  rw [logAndApply_nowversion happly, staged]

/-- A call that succeeds and leaves the records of all edits in the live manifest. -/
theorem Inv.installed (h : r.Inv C) (hedit : r.Accepts edit)
    (happly : r.versions.logAndApply r.disk edit io = some (.ok, vs', disk'))
    (hwrites : vs'.Writes disk' (descriptorFileName r.versions.manifestFileNumber)
      ((r.applied ++ [r.versions.completeEdit edit]).map VersionEdit.encodeTo)) :
    (ManifestRun.mk vs' disk' vs'.nowversion.files
      (r.applied ++ [r.versions.completeEdit edit])).Inv C := by
  have hinstalls := logAndApply_installs happly
  obtain ⟨hnumber, hlog⟩ := logAndApply_descriptorLog happly
  have hrecords : ∀ e ∈ r.applied ++ [r.versions.completeEdit edit],
      e.Encodable ∧ e.compactPointers = [] := by
    intro e he
    rcases List.mem_append.mp he with he | he
    · exact h.records e he
    · rw [List.mem_singleton.mp he]
      exact ⟨encodable_completeEdit h.bounded hedit.lastSequence hedit.encodable,
        hedit.compactPointers⟩
  have hnonempty : ∀ e ∈ r.applied ++ [r.versions.completeEdit edit], e.encodeTo ≠ [] := by
    intro e he
    rcases List.mem_append.mp he with he | he
    · exact h.nonempty e he
    · rw [List.mem_singleton.mp he]
      exact completeEdit_ne_nil _ _
  have hsaved := hedit.fresh.savedFiles h.files
  have hfiles := (files_of_logAndApply happly).trans hsaved.symm
  refine ⟨?_, hinstalls.bounded h.bounded hedit.encodable,
    (hinstalls.compactPointer hedit.compactPointers).trans h.compactPointer, hfiles, hrecords,
    hnonempty, fun hnone => ?_, fun _ => hnumber ▸ hwrites⟩
  · obtain ⟨v, hv, -⟩ := logAndApply_stage happly
    obtain ⟨hvfiles, hover⟩ := Builder.saveTo_eq_some hv
    obtain ⟨u, hu, hufiles⟩ := Builder.exists_saveTo
      (b := (r.applied ++ [r.versions.completeEdit edit]).foldl Builder.apply { base := {} })
      fun level hlevel => by
        rw [hsaved, ← hvfiles]
        exact hover level hlevel
    obtain ⟨w, hw⟩ := r.versions.exists_carries edit
    have hread := recoverRead_eq C hwrites.current hwrites.manifest
      (List.forall_mem_map.mpr hnonempty) hedit.blocks {}
    refine ⟨_, hread.trans (recover_saveTo hwrites.current hwrites.manifest hrecords hu hw), ?_⟩
    rw [hfiles, ← hufiles]
    rfl
  · rw [hlog] at hnone
    cases hnone

theorem Inv.open_step {name : FileName} (h : r.Inv C) (hedit : r.Accepts edit)
    (happly : r.versions.logAndApply r.disk edit io = some (s, vs', disk'))
    (hopen : r.versions.descriptorLog = some name) (hsync : io.appendEdit = .ok → io.sync = .ok) :
    (∀ d ∈ r.disk.points (r.versions.fileOps r.disk edit io),
        d.Replays C r.installed ∨ d.Replays C (r.staged edit)) ∧
      (r.next (r.versions.completeEdit edit) (s, vs', disk')).Inv C := by
  have hw := h.opened (by simp [hopen])
  cases hopen.symm.trans hw.descriptorLog
  obtain ⟨hs, hops⟩ := fileOps_open hopen happly
  have hdisk := after_fileOps happly
  by_cases happend : io.appendEdit = .ok
  · cases hs.mpr ⟨happend, hsync happend⟩
    rw [hops, if_pos happend] at hdisk ⊢
    have hmanifest : disk'.manifests (descriptorFileName r.versions.manifestFileNumber) =
        some ((r.applied ++ [r.versions.completeEdit edit]).map VersionEdit.encodeTo) := by
      rw [← hdisk]
      simp [Disk.after, DiskOp.run, Disk.appendRecord, hw.manifest, completeEdit_ne_nil]
    have hnext := h.installed hedit happly
      ⟨(logAndApply_descriptorLog happly).2.trans (by rw [hopen]; rfl),
        (congrArg Disk.current hdisk).symm.trans hw.current, hmanifest⟩
    refine ⟨fun d hd => ?_, hnext⟩
    rcases List.mem_cons.mp hd with rfl | hd
    · exact .inl h.replays
    · cases (List.mem_singleton.mp hd).trans hdisk
      exact .inr (files_of_logAndApply happly ▸ hnext.replays)
  · have hne : s ≠ .ok := fun hok => happend (hs.mp hok).1
    rw [hops, if_neg happend] at hdisk ⊢
    cases hdisk
    rw [next, if_neg hne]
    refine ⟨fun d hd => ?_, h.failed happly hne hedit.compactPointers (.refl _)⟩
    cases List.mem_singleton.mp hd
    exact .inl h.replays

/-- Without an open manifest. -/
theorem Inv.create_step (h : r.Inv C) (hedit : r.Accepts edit)
    (happly : r.versions.logAndApply r.disk edit io = some (s, vs', disk'))
    (hnone : r.versions.descriptorLog = none)
    (hcreate : r.disk.current ≠ some (descriptorFileName r.versions.manifestFileNumber ++ ['\n'])) :
    (∀ d ∈ r.disk.points (r.versions.fileOps r.disk edit io),
        d.Replays C r.installed ∨ d.Replays C (r.staged edit)) ∧
      (r.next (r.versions.completeEdit edit) (s, vs', disk')).Inv C := by
  obtain ⟨hok, hfail⟩ := fileOps_create hnone happly
  have hdisk := after_fileOps happly
  by_cases hs : s = .ok
  · obtain ⟨snap, hsnap, hops⟩ := hok hs
    cases hs
    have happlied := (h.closed hnone).resolve_right hcreate
    have hnofiles : r.versions.nowversion.files = fun _ => [] := by
      rw [h.files, happlied]
      rfl
    cases hsnap hedit.compactPointers (snapshot_eq_nil h.compactPointer hnofiles)
    rw [hops] at hdisk ⊢
    have hmanifest : disk'.manifests (descriptorFileName r.versions.manifestFileNumber) =
        some ((r.applied ++ [r.versions.completeEdit edit]).map VersionEdit.encodeTo) := by
      rw [← hdisk, happlied]
      simp [Disk.after, DiskOp.run, Disk.appendRecord, Disk.create, Disk.setCurrentFile,
        completeEdit_ne_nil]
    have hnext := h.installed hedit happly
      ⟨(logAndApply_descriptorLog happly).2.trans (by rw [hnone]; rfl),
        (congrArg Disk.current hdisk).symm, hmanifest⟩
    refine ⟨fun d hd => ?_, hnext⟩
    rcases Disk.mem_points_append_singleton hd with hd | rfl
    · refine .inl (h.replays.of_sameCurrent (Disk.sameCurrent_points ?_ hcreate d hd))
      simp [DiskOp.On]
    · rw [hdisk, ← files_of_logAndApply happly]
      exact .inr hnext.replays
  · have hsame := Disk.sameCurrent_points (hfail hs) hcreate
    rw [next, if_neg hs]
    refine ⟨fun d hd => .inl (h.replays.of_sameCurrent (hsame d hd)), ?_⟩
    refine h.failed happly hs hedit.compactPointers (hsame disk' ?_)
    rw [← hdisk]
    exact Disk.after_mem_points _ _

/-- A safe call keeps the invariant, and each of its points replays. -/
theorem Inv.step {r' : ManifestRun} {c : ApplyCall} (h : r.Inv C) (hc : c.Encodable)
    (hsafe : c.Safe r) (hstep : c.step r = some r') : c.Replayable C r r' ∧ r'.Inv C := by
  obtain ⟨⟨s, vs', disk'⟩, happly, rfl⟩ := Option.map_eq_some_iff.mp hstep
  let r₁ : ManifestRun := ⟨c.prepare r.versions, r.disk, r.installed, r.applied⟩
  have hinv : r₁.Inv C := h.prepare c.toApplyStep
  have haccepts : r₁.Accepts c.edit := by
    refine ⟨?_, hc.edit, hsafe.compactPointers, hsafe.fresh, hsafe.blocks⟩
    rw [c.prepare_lastSequence]
    exact hc.lastSequence
  have hstaged : r₁.staged c.edit = r.staged c.edit := by
    rw [staged, staged, ApplyStep.prepare_nowversion]
  have hlog := c.prepare_descriptorLog r.versions
  have hnumber := c.prepare_manifestFileNumber r.versions
  have hboth : (∀ d ∈ r.disk.points ((c.prepare r.versions).fileOps r.disk c.edit c.io),
      d.Replays C r.installed ∨ d.Replays C (r₁.staged c.edit)) ∧
      (r.next (c.recorded r.versions) (s, vs', disk')).Inv C := by
    cases hopen : r.versions.descriptorLog with
    | none =>
      exact hinv.create_step haccepts happly (hlog.trans hopen) (hnumber ▸ hsafe.create hopen)
    | some name =>
      refine hinv.open_step haccepts happly (hlog.trans hopen) (hsafe.sync ?_)
      rw [hopen]
      exact Option.some_ne_none name
  exact ⟨⟨hstaged ▸ hboth.1, hboth.2.replays⟩, hboth.2⟩

end ManifestRun

/-- In a run of safe calls behind a `Recover`, `CURRENT` names a replayable manifest at every point. -/
theorem alwaysReplays_of_safe {C : Crc32c} {vs : VersionSet} {disk : Disk} {calls : List ApplyCall}
    (hrecover : recoverRead C {} disk = some (.ok, true, vs)) (hcalls : ∀ c ∈ calls, c.Encodable)
    (hsafe : EachStep ApplyCall.step (fun r c _ => c.Safe r) calls (.start vs disk)) :
    (ManifestRun.start vs disk).AlwaysReplays C calls := by
  have hinv := ManifestRun.Inv.of_recover hrecover
  exact ⟨hinv.replays, hsafe.of_invariant
    (fun r c hc r' hstep hr hsafe => hr.step (hcalls c hc) hsafe hstep) hinv⟩

/-- The first call cannot rename the file that becomes `CURRENT`, and is repeated. -/
def repeatedCall : List ApplyCall := [⟨addTable, { setCurrentFile := .ioError }⟩, ⟨addTable, {}⟩]

theorem freshNumbers_addTable (vs : VersionSet) : FreshNumbers {} [addTable.recorded vs] where
  base level f _ := fun ⟨_, hg, _⟩ => List.not_mem_nil hg
  once := show ∀ level, (([addTable.edit] : List VersionEdit).flatMap (·.filesAt level)).Pairwise
    (·.num ≠ ·.num) by decide

theorem recoverRead_newDb (C : Crc32c) : recoverRead C {} newDb = some (.ok, true, newVersionSet) := by
  have hmanifest : newDb.manifests (descriptorFileName 1) = some [newDbEdit.encodeTo] := rfl
  have hblocks : FitsBlocks kBlockSize [newDbEdit.encodeTo] := fitsBlocks_singleton.mpr (by decide +kernel)
  exact (recoverRead_eq C rfl hmanifest (by decide) hblocks {}).trans recover_newDb

theorem alwaysReplays_repeatedCall :
    (ManifestRun.start newVersionSet newDb).AlwaysReplays .castagnoli repeatedCall := by
  refine alwaysReplays_of_safe (recoverRead_newDb _) ?_
    fun r hr => ⟨?_, fun r' hr' => ⟨?_, trivial⟩⟩
  · exact List.forall_mem_cons.mpr ⟨encodable_addTable, List.forall_mem_singleton.mpr
      encodable_addTable⟩
  · exact ⟨fun _ => by decide, fun hopen => absurd rfl hopen, rfl, freshNumbers_addTable _,
      fitsBlocks_singleton.mpr (by decide +kernel)⟩
  · have hfailed : (ApplyCall.step ⟨addTable, { setCurrentFile := .ioError }⟩
        (.start newVersionSet newDb)).map (fun r => (r.versions.descriptorLog,
          r.versions.manifestFileNumber, r.disk.current, r.applied)) =
        some (none, 2, some (descriptorFileName 1 ++ ['\n']), []) := by rfl
    have hlen : (ApplyCall.step ⟨addTable, { setCurrentFile := .ioError }⟩
        (.start newVersionSet newDb)).map (fun r => (addTable.recorded r.versions).encodeTo.length) =
        some 30 := by decide +kernel
    rw [hr] at hfailed hlen
    simp only [Option.map_some, Option.some.injEq, Prod.mk.injEq] at hfailed hlen
    obtain ⟨hlog, hnumber, hcurrent, happlied⟩ := hfailed
    refine ⟨fun _ => ?_, fun hopen => absurd hlog hopen, rfl, ?_, ?_⟩
    · rw [hcurrent, hnumber]
      decide
    · rw [happlied]
      exact freshNumbers_addTable _
    · rw [happlied]
      exact fitsBlocks_singleton.mpr (hlen ▸ by decide)

/-- A call that creates a manifest under the name of the live one loses it. -/
theorem not_replayable_of_create {C : Crc32c} {r r' : ManifestRun} {c : ApplyCall} (hstep : c.step r = some r')
    (hnone : r.versions.descriptorLog = none)
    (hcurrent : r.disk.current = some (descriptorFileName r.versions.manifestFileNumber ++ ['\n'])) :
    ¬ c.Replayable C r r' := by
  intro h
  obtain ⟨⟨s, vs', disk'⟩, happly, rfl⟩ := Option.map_eq_some_iff.mp hstep
  rw [← c.prepare_descriptorLog] at hnone
  rw [← c.prepare_manifestFileNumber] at hcurrent
  obtain ⟨hok, hfail⟩ := fileOps_create hnone happly
  by_cases hs : s = .ok
  · obtain ⟨snap, -, hops⟩ := hok hs
    have hpoint := h.points (r.disk.create _) (by
      rw [hops]
      exact List.mem_cons_of_mem _ List.mem_cons_self)
    exact hpoint.elim (Disk.not_replays_create hcurrent) (Disk.not_replays_create hcurrent)
  · have hdisk : (r.next (c.recorded r.versions) (s, vs', disk')).disk = disk' := by
      rw [ManifestRun.next, if_neg hs]
    have hafter : (r.disk.after _).current = r.disk.current := Disk.current_after (hfail hs)
    rw [after_fileOps happly] at hafter
    exact Disk.not_replays_of_manifest_eq_none (hafter.trans hcurrent)
      (manifest_eq_none_of_failed hnone happly hs) (hdisk ▸ h.after)

/-- Behind a failed `Sync`, the next call truncates the manifest that `CURRENT` names. -/
theorem not_alwaysReplays :
    ¬ ∀ (disk : Disk) (vs : VersionSet) (calls : List ApplyCall),
      recoverRead .castagnoli {} disk = some (.ok, true, vs) → (∀ c ∈ calls, c.Encodable) →
        (ManifestRun.start vs disk).AlwaysReplays .castagnoli calls := by
  intro h
  let failed : List ApplyCall := [⟨addTable, {}⟩, ⟨deleteTable, { sync := .ioError }⟩]
  let again : ApplyCall := ⟨deleteTable, {}⟩
  have hfailed : (runAll ApplyCall.step failed (.start newVersionSet newDb)).map (fun r =>
      (r.versions.descriptorLog, r.versions.manifestFileNumber, r.disk.current)) =
      some (none, 2, some (descriptorFileName 2 ++ ['\n'])) := by rfl
  have hagain : ((runAll ApplyCall.step failed (.start newVersionSet newDb)).bind
      again.step).isSome := by rfl
  obtain ⟨r, hrun, hr⟩ := Option.map_eq_some_iff.mp hfailed
  simp only [Prod.mk.injEq] at hr
  obtain ⟨hlog, hnumber, hcurrent⟩ := hr
  obtain ⟨r', hstep⟩ := Option.isSome_iff_exists.mp hagain
  rw [hrun, Option.bind_some] at hstep
  have hall := h newDb newVersionSet (failed ++ [again]) (recoverRead_newDb _) (by
    simp [failed, again, encodable_addTable, encodable_deleteTable])
  exact not_replayable_of_create hstep hlog (hnumber ▸ hcurrent) (hall.2.of_runAll hrun hstep)

end Yubindb
