import Yubindb.Db.CurrentManifest
import Yubindb.Db.DurableLog
import Yubindb.Db.Obsolete
import Yubindb.Util.ParseName

/-!
# Power failures and the manifest

The calls of `VersionSet::LogAndApply` in `src/db/version_set.cpp` and of `DBImpl::NewDB` in
`src/db/db.cpp` on a volume, and what `VersionSet::Recover` reads of what a power failure leaves.
-/

namespace Yubindb
open VersionSet

/-! ## `Recover` from the bytes of the files -/

/-- The name that the bytes are. -/
def chars (bytes : Bytes) : FileName := bytes.map fun b => Char.ofNat b.toNat

/-- `VersionSet::Recover` on a volume. -/
def VersionSet.recoverFrom (C : Crc32c) (vs : VersionSet) (v : DbVolume) :
    Option (State × Bool × VersionSet) :=
  match v.read currentFileName with
  | none => some (.ioError, false, vs)
  | some current =>
    if (chars current).getLast? ≠ some '\n' then some (.corruption, false, vs)
    else
      match v.read (chars current).dropLast with
      | none => some (.ioError, false, vs)
      | some contents => do
        let records ← Reader.readRecords C (.new ⟨contents⟩ true 0)
        finishRecover vs (vs.replay records)

/-- The calls of `LogAndApply` on a volume when there is no manifest: `NewWritableFile`, the records of
`WriteSnapshot` and of the edit, `Sync` and `SetCurrentFile`, and `DeleteFile` behind a failure. `io`
has the states of the calls on the manifest, and `cur` those of `SetCurrentFile`. -/
def PosixIo.createManifest (io cur : PosixIo) (C : Crc32c) (number : Nat) (records : List Bytes)
    (v : DbVolume) : Option (State × List DbCall) :=
  let man := descriptorFileName number
  if io.newWritableFile ≠ .ok then some (io.newWritableFile, io.delete man)
  else
    (WalWriter.appendAll C (.new WritableFile.empty) records).map fun w =>
      let (s, sync) := io.sync man (v.fd man) w.file.buf
      let calls := [.create man, .write (v.fd man) w.file.disk] ++ sync
      if s ≠ .ok then (s, calls ++ io.delete man)
      else
        let (s, set) := cur.setCurrentFile number (v.after calls)
        (s, calls ++ set ++ if s = .ok then [] else io.delete man)

variable {C : Crc32c} {v w w₀ : DbVolume} {T : Set FileName} {io cur : PosixIo} {number : Nat}
  {records : List Bytes} {s : State} {calls front : List DbCall}

theorem VersionSet.recoverFrom_congr (hread : ∀ name ∉ T, w.read name = w₀.read name)
    (hcurrent : currentFileName ∉ T)
    (hname : ∀ line, w₀.read currentFileName = some line → (chars line).dropLast ∉ T)
    (vs : VersionSet) : vs.recoverFrom C w = vs.recoverFrom C w₀ := by
  rw [recoverFrom, recoverFrom, hread _ hcurrent]
  cases hline : w₀.read currentFileName with
  | none => rfl
  | some line => simp only [hread _ (hname line hline)]

theorem chars_bytes {name : FileName} (h : ∀ c ∈ name, c.toNat < 256) : chars name.bytes = name := by
  rw [chars, FileName.bytes, List.map_map]
  refine (List.map_congr_left fun c hc => ?_).trans (List.map_id name)
  have hsmall : (UInt8.ofNat c.toNat).toNat = c.toNat := by
    rw [UInt8.toNat_ofNat']
    exact Nat.mod_eq_of_lt (h c hc)
  rw [Function.comp_apply, hsmall, Char.ofNat_toNat]
  rfl

theorem chars_currentLine (number : Nat) :
    chars (currentLine number) = descriptorFileName number ++ ['\n'] := by
  refine chars_bytes fun c hc => ?_
  have hletters : ("MANIFEST-".toList.all fun c => c.toNat < 256) = true := rfl
  rcases List.mem_append.mp hc with hc | hc
  · rcases List.mem_append.mp hc with hc | hc
    · exact of_decide_eq_true (List.all_eq_true.mp hletters c hc)
    · have hdigit := isDigit_of_mem_padded hc
      rw [Char.isDigit, Bool.and_eq_true, decide_eq_true_iff, decide_eq_true_iff] at hdigit
      have hle : c.toNat ≤ 57 := hdigit.2
      omega
  · rw [List.mem_singleton.mp hc]
    decide

/-- `Recover` when `CURRENT` has the line of `SetCurrentFile`. -/
theorem VersionSet.recoverFrom_eq {contents : Bytes}
    (hcurrent : w.read currentFileName = some (currentLine number))
    (hmanifest : w.read (descriptorFileName number) = some contents) (vs : VersionSet) :
    vs.recoverFrom C w = (Reader.readRecords C (.new ⟨contents⟩ true 0)).bind fun records =>
      finishRecover vs (vs.replay records) := by
  rw [recoverFrom, hcurrent]
  dsimp only
  rw [chars_currentLine, List.getLast?_concat, List.dropLast_concat, hmanifest]
  rfl

/-! ## A new manifest -/

namespace PosixIo

/-- The calls that put a manifest on the medium. -/
def manifestCalls (C : Crc32c) (number : Nat) (records : List Bytes) (v : DbVolume) : List DbCall :=
  let fd := v.fd (descriptorFileName number)
  [.create (descriptorFileName number), .write fd (logBytes C records), .write fd [], .fsync fd]

theorem allWithin_manifestCalls (hman : descriptorFileName number ∈ T) :
    Volume.AllWithin T v (manifestCalls C number records v) := by
  have hfd : ∃ name ∈ T, (v.run (.create (descriptorFileName number))).names name =
      some (v.fd (descriptorFileName number)) := ⟨_, hman, v.names_create _⟩
  exact ⟨hman, hfd, hfd, hfd, trivial⟩

/-- A failure leaves other names alone; a success puts the manifest on the medium, and then makes
`CURRENT` name it. -/
theorem createManifest_cases (hnumber : number < 2 ^ 64)
    (h : io.createManifest cur C number records v = some (s, calls)) :
    s ≠ .ok ∧ Volume.AllWithin {descriptorFileName number, tempFileName number} v calls ∨
      s = .ok ∧ ∃ v', v' = v.after (manifestCalls C number records v) ∧
        (cur.setCurrentFile number v').1 = .ok ∧
        calls = manifestCalls C number records v ++ (cur.setCurrentFile number v').2 := by
  have hman : descriptorFileName number ∈
      ({descriptorFileName number, tempFileName number} : Set FileName) := .inl rfl
  by_cases hopen : io.newWritableFile = .ok
  swap
  · rw [createManifest, if_pos hopen] at h
    obtain ⟨rfl, rfl⟩ := Prod.mk.inj (Option.some.inj h)
    exact .inl ⟨hopen, allWithin_delete hman⟩
  rw [createManifest, if_neg (not_not.mpr hopen), WalWriter.appendAll_written] at h
  by_cases hs : (io.sync (descriptorFileName number) (v.fd (descriptorFileName number)) []).1 = .ok
  · have hsync : io.sync (descriptorFileName number) (v.fd (descriptorFileName number)) [] =
        (.ok, [.write (v.fd (descriptorFileName number)) [],
          .fsync (v.fd (descriptorFileName number))]) := by
      refine Prod.ext hs ((WalFile.sync_of_ok hs).trans ?_)
      rw [not_ismanifest_descriptorFileName]
      rfl
    have hcalls : [.create (descriptorFileName number),
        .write (v.fd (descriptorFileName number)) (logBytes C records)] ++
          [.write (v.fd (descriptorFileName number)) [],
            .fsync (v.fd (descriptorFileName number))] = manifestCalls C number records v := rfl
    simp only [Option.map_some, WalWriter.buf_written, WalWriter.disk_written, hsync, hcalls, ne_eq,
      not_true_eq_false, if_false, Option.some.injEq] at h
    generalize hv' : v.after (manifestCalls C number records v) = v' at h
    obtain ⟨rfl, rfl⟩ := Prod.mk.inj h
    rcases setCurrentFile_cases hnumber cur v' with ⟨hs, hset⟩ | ⟨hs, -⟩
    · refine .inl ⟨hs, Volume.allWithin_append.mpr ⟨Volume.allWithin_append.mpr
        ⟨allWithin_manifestCalls hman, ?_⟩, ?_⟩⟩
      · rw [hv']
        exact hset.mono fun name hname => .inr hname
      · rw [if_neg hs]
        exact allWithin_delete hman
    · exact .inr ⟨hs, v', rfl, hs, by rw [if_pos hs, List.append_nil]⟩
  · have hfd : (v.after [.create (descriptorFileName number),
        .write (v.fd (descriptorFileName number)) (logBytes C records)]).names
          (descriptorFileName number) = some (v.fd (descriptorFileName number)) := v.names_create _
    have hsync : Volume.AllWithin {descriptorFileName number, tempFileName number} _
      (io.sync (descriptorFileName number) (v.fd (descriptorFileName number)) []).2 :=
        allWithin_sync hman hfd
    simp only [Option.map_some, WalWriter.buf_written, Option.some.injEq, ne_eq, hs,
      not_false_eq_true, if_true] at h
    obtain ⟨rfl, rfl⟩ := Prod.mk.inj h
    refine .inl ⟨hs, Volume.allWithin_append.mpr ⟨Volume.allWithin_append.mpr
      ⟨⟨hman, ⟨_, hman, v.names_create _⟩, trivial⟩, hsync⟩, allWithin_delete hman⟩⟩

theorem descriptorFileName_ne_tempFileName (number number' : Nat) :
    descriptorFileName number ≠ tempFileName number' := by
  intro h
  have hflag := congrArg ismanifest h
  rw [not_ismanifest_descriptorFileName] at hflag
  exact Bool.false_ne_true (hflag.trans (ismanifest_makeFileName number' _))

theorem descriptorFileName_ne_currentFileName (number : Nat) :
    descriptorFileName number ≠ currentFileName := by
  intro h
  cases (List.cons.inj h).1

/-- The manifest is on the medium, but for its name. -/
theorem manifest_synced (C : Crc32c) (number : Nat) (records : List Bytes) (v : DbVolume) :
    let v' := v.after (manifestCalls C number records v)
    let fd := v.fd (descriptorFileName number)
    v'.names (descriptorFileName number) = some fd ∧ (v'.inodes fd).pending = [] ∧
      (v'.inodes fd).contents = logBytes C records := by
  refine ⟨v.names_create _, ?_, ?_⟩
  · simp [manifestCalls, Volume.after]
  · simp [manifestCalls, Volume.after]

/-- The temporary name, when the manifest has been created. -/
theorem apart_created (hman : v.Apart {descriptorFileName number})
    (htmp : v.Apart {tempFileName number}) {calls : List DbCall}
    (hcalls : ∀ call ∈ calls, Volume.KeepsNames call) :
    (v.after (.create (descriptorFileName number) :: calls)).Apart {tempFileName number} :=
  (htmp.create hman (descriptorFileName_ne_tempFileName number number)).after hcalls

end PosixIo

/-! ## `LogAndApply` without a manifest -/

namespace VersionSet
variable {vs vs' : VersionSet} {disk disk' : Disk} {edit : VersionEdit}

end VersionSet

/-- The files of a new database. -/
def newDbFiles : DbVolume := .ofFiles
  [(descriptorFileName 1, logBytes .castagnoli [newDbEdit.encodeTo]),
    (currentFileName, currentLine 1)]

theorem apart_newDbFiles {name : FileName} (hman : descriptorFileName 1 ≠ name)
    (hcurrent : currentFileName ≠ name) : newDbFiles.Apart {name} := by
  refine Volume.apart_ofFiles ?_
  simp [hman, hcurrent]

theorem read_newDbFiles : newDbFiles.read currentFileName = some (currentLine 1) := rfl

theorem PosixIo.exists_createManifest (C : Crc32c) (number : Nat) (records : List Bytes)
    (v : DbVolume) : ∃ calls, PosixIo.createManifest {} {} C number records v = some (.ok, calls) := by
  rw [createManifest, WalWriter.appendAll_written]
  simp [PosixIo.sync, not_ismanifest_descriptorFileName, setCurrentFile, writeStringToFile]

namespace VersionSet
variable {vs : VersionSet} {edit : VersionEdit}

end VersionSet

/-! ## A manifest that edits are appended to -/

namespace PosixIo

/-- The manifest that `LogAndApply` has created. -/
def openedManifest (C : Crc32c) (records : List Bytes) (v : DbVolume) : WalFile :=
  ⟨v, .written C records, records, some records⟩

theorem createManifest_ok (hnumber : number < 2 ^ 64) (hvalid : v.Valid)
    (hman : v.Apart {descriptorFileName number}) (htmp : v.Apart {tempFileName number})
    (h : io.createManifest cur C number records v = some (.ok, calls)) :
    WalFile.Inv C (descriptorFileName number) (v.fd (descriptorFileName number))
        (openedManifest C records (v.after calls)) ∧
      ∃ fd ≠ v.fd (descriptorFileName number), (v.after calls).names currentFileName = some fd ∧
        (v.after calls).Appended fd (currentLine number) [] := by
  rcases createManifest_cases hnumber h with ⟨hno, -⟩ | ⟨-, v', hv', hset, rfl⟩
  · exact absurd rfl hno
  obtain ⟨hname, hpending, hcontents⟩ := manifest_synced C number records v
  have htmp' : v'.Apart {tempFileName number} :=
    hv' ▸ apart_created hman htmp (by simp [Volume.KeepsNames])
  rw [← hv'] at hname hpending hcontents
  obtain ⟨hcur, hcpending, hline, hother⟩ := setCurrentFile_ok hnumber htmp' hset
  obtain ⟨hbound, hinode, hne⟩ := hother _ _ (descriptorFileName_ne_tempFileName number number)
    (descriptorFileName_ne_currentFileName number) hname
  have hname' := hbound.names
  rw [Volume.after_append, ← hv']
  have hvalid' : (v'.after (cur.setCurrentFile number v').2).Valid :=
    Volume.Valid.after (hv' ▸ hvalid.after _) _
  have happ := Volume.Appended.of_synced (hvalid' _ _ (Volume.mayName_of_names hname'))
    ((congrArg Inode.pending hinode).trans hpending)
  rw [hinode, hcontents] at happ
  refine ⟨⟨hname', rfl, ⟨_, [], happ, List.append_nil _, ?_⟩, fun hflag => ?_⟩, _, hne.symm, hcur, ?_⟩
  · rintro acked ⟨⟩
    exact ⟨List.prefix_refl _, List.prefix_refl _⟩
  · rw [not_ismanifest_descriptorFileName] at hflag
    cases hflag
  · exact hline ▸ Volume.Appended.of_synced (hvalid' _ _ (Volume.mayName_of_names hcur)) hcpending

/-- Once the directory has been synced behind a `LogAndApply` that creates a manifest, every later power
failure leaves a `CURRENT` that names it, and a manifest with all the edits in front of the last
`Sync` that returned `Ok`; and where the edits are whole in their blocks, `Recover` replays them, unless
the file is left with a full last block. -/
theorem manifest_survives (hnumber : number < 2 ^ 64) (hvalid : v.Valid)
    (hman : v.Apart {descriptorFileName number}) (htmp : v.Apart {tempFileName number})
    (h : io.createManifest cur C number records v = some (.ok, calls)) {fd : Nat}
    (hfd : (v.after calls).names currentFileName = some fd) {f₁ f₂ f f' : WalFile}
    (hrun : Steps (WalFile.step C (descriptorFileName number) (v.fd (descriptorFileName number)))
      (WalFile.Leaves currentFileName fd) (openedManifest C records (v.after calls)) f₁)
    (hdir : f₁.step C (descriptorFileName number) (v.fd (descriptorFileName number))
      (.other .fsyncDir) = some f₂)
    (hrun' : Steps (WalFile.step C (descriptorFileName number) (v.fd (descriptorFileName number)))
      (WalFile.Leaves currentFileName fd) f₂ f) {action : WalAction} {calls' : List DbCall}
    (hact : f.act C (descriptorFileName number) (v.fd (descriptorFileName number)) action =
      some (calls', f'))
    (hleaves : f.Leaves currentFileName fd action) (hfront : front <+: calls')
    (hcrash : (f.volume.after front).Crash w) {acked : List Bytes} (hacked : acked ∈ f.acked) :
    ∃ p, w.read currentFileName = some (currentLine number) ∧
      w.read (descriptorFileName number) = some p ∧ logBytes C acked <+: p ∧
      p <+: logBytes C f'.records ∧ (InBlocks 0 (stored f'.records) →
        p.length % kBlockSize = 0 ∧ (∀ vs : VersionSet, vs.recoverFrom C w = none) ∨
        p.length % kBlockSize ≠ 0 ∧ ∃ read, stored acked <+: read ∧ read <+: stored f'.records ∧
          ∀ vs : VersionSet, vs.recoverFrom C w = finishRecover vs (vs.replay read)) := by
  obtain ⟨hinv, fd', hne, hfd', happ⟩ := createManifest_ok hnumber hvalid hman htmp h
  obtain rfl : fd = fd' := Option.some.inj (hfd.symm.trans hfd')
  have hspared (v : DbVolume) (call : DbCall) (hcall : v.Spares currentFileName fd call)
      (hv : v.names currentFileName = some fd ∧ v.Appended fd (currentLine number) []) :
      (v.run call).names currentFileName = some fd ∧
        (v.run call).Appended fd (currentLine number) [] :=
    ⟨(Volume.names_spared hcall).trans hv.1, hv.2.spared hcall⟩
  obtain ⟨hnames₁, happ₁⟩ := WalFile.second_of_steps hspared hne.symm hrun ⟨hfd, happ⟩
  obtain rfl : f₂ = { f₁ with volume := f₁.volume.run .fsyncDir } := (Option.some.inj hdir).symm
  -- both names are on the medium now
  have hbound (v : DbVolume) (call : DbCall) (hcall : v.Spares currentFileName fd call)
      (hv : v.Bound currentFileName fd ∧ v.Appended fd (currentLine number) []) :
      (v.run call).Bound currentFileName fd ∧ (v.run call).Appended fd (currentLine number) [] :=
    ⟨hv.1.spared hcall, hv.2.spared hcall⟩
  have hinv₁ := WalFile.inv_of_steps hrun hinv
  have hinv₂ := WalFile.inv_of_steps hrun' (hinv₁.spared trivial)
  have hcurrent := WalFile.second_of_act hbound hne.symm hact hleaves hfront
    (WalFile.second_of_steps hbound hne.symm hrun'
      ⟨Volume.Bound.fsyncDir hnames₁, happ₁.fsyncDir⟩)
  have hmanifest := WalFile.bound_of_act hact hfront
    (WalFile.bound_of_steps hrun' (Volume.Bound.fsyncDir hinv₁.names))
  obtain ⟨rest, hrest, hline⟩ := hcurrent.1.crash hcurrent.2 hcrash
  rw [List.prefix_nil.mp hrest, List.append_nil] at hline
  obtain ⟨p, hread, hle, hp⟩ := hinv₂.crash_act hact hfront hacked hmanifest hcrash
  refine ⟨p, hline, hread, hle, hp, fun hblocks => ?_⟩
  have hstored := (hinv₂.acked_front hacked).trans (WalFile.ghosts_of_act hact).1
  refine (Reader.readRecords_of_prefix hblocks hp hstored hle).imp ?_ ?_
  · rintro ⟨hmod, hnone⟩
    refine ⟨hmod, fun vs => ?_⟩
    rw [recoverFrom_eq hline hread, hnone, Option.bind_none]
  · rintro ⟨hmod, read, hsome, hfront, hback⟩
    refine ⟨hmod, read, hfront, hback, fun vs => ?_⟩
    rw [recoverFrom_eq hline hread, hsome, Option.bind_some]

/-- The directory is synced when a new database has its second manifest. -/
theorem manifest_survives_settled :
    ∃ calls, PosixIo.createManifest {} {} .castagnoli 2 [[], [0, 3, 1, 4, 2, 0]] newDbFiles =
        some (.ok, calls) ∧
      ∃ p, ((newDbFiles.after calls).run .fsyncDir).settled.read currentFileName =
          some (currentLine 2) ∧
        ((newDbFiles.after calls).run .fsyncDir).settled.read (descriptorFileName 2) = some p ∧
        logBytes .castagnoli [[], [0, 3, 1, 4, 2, 0]] <+: p ∧
        p <+: logBytes .castagnoli [[], [0, 3, 1, 4, 2, 0]] ∧
        (InBlocks 0 (stored [[], [0, 3, 1, 4, 2, 0]]) →
          p.length % kBlockSize = 0 ∧ (∀ vs : VersionSet, vs.recoverFrom .castagnoli
            ((newDbFiles.after calls).run .fsyncDir).settled = none) ∨
          p.length % kBlockSize ≠ 0 ∧ ∃ read, stored [[], [0, 3, 1, 4, 2, 0]] <+: read ∧
            read <+: stored [[], [0, 3, 1, 4, 2, 0]] ∧
            ∀ vs : VersionSet, vs.recoverFrom .castagnoli
              ((newDbFiles.after calls).run .fsyncDir).settled =
                finishRecover vs (vs.replay read)) := by
  obtain ⟨calls, h⟩ := exists_createManifest .castagnoli 2 [[], [0, 3, 1, 4, 2, 0]] newDbFiles
  have hman : newDbFiles.Apart {descriptorFileName 2} := apart_newDbFiles (by decide) (by decide)
  have htmp : newDbFiles.Apart {tempFileName 2} := apart_newDbFiles (by decide) (by decide)
  have hnumber : 2 < 2 ^ 64 := by decide
  obtain ⟨-, fd, -, hfd, -⟩ := createManifest_ok hnumber Volume.valid_ofFiles hman htmp h
  exact ⟨calls, h, manifest_survives hnumber Volume.valid_ofFiles hman htmp h hfd (.refl _) rfl (.refl _)
    (show WalFile.act _ _ _ (.sync {}) _ = some _ from rfl) trivial List.nil_prefix
    (Volume.crash_settled _) rfl⟩

end PosixIo

/-! ## Obsolete files -/

theorem descriptorFileName_injective {m n : Nat} (h : descriptorFileName m = descriptorFileName n) :
    m = n := padded_injective (List.append_cancel_left h)

/-- Neither `CURRENT` nor a manifest is deleted. -/
theorem FilesInUse.not_mem_deleteObsoleteFiles {db : FilesInUse} {filenames deleted : List FileName}
    (h : db.deleteObsoleteFiles filenames = some deleted) :
    currentFileName ∉ deleted ∧ ∀ n, descriptorFileName n ∉ deleted := by
  rw [deleteObsoleteFiles] at h
  split at h
  · cases h
    exact ⟨List.not_mem_nil, fun _ => List.not_mem_nil⟩
  · refine ⟨?_, descriptorFileName_not_mem_deleteLoop h⟩
    rw [mem_deleteLoop h]
    rintro ⟨-, num, type, hparsed, hkeep⟩
    have hcurrent : parsefileName currentFileName = some (some (0, .kCurrentFile)) := rfl
    rw [hcurrent] at hparsed
    cases hparsed
    cases hkeep

/-- `DeleteObsoleteFiles` does not wait for the new `CURRENT`: behind a `LogAndApply` that has created a
manifest, a power failure can leave the version that `Recover` read before, without any of the logs
and tables that the new version has made obsolete. -/
theorem PosixIo.deleteObsoleteFiles_crash (hnumber : number < 2 ^ 64)
    (hman : v.Apart {descriptorFileName number}) (htmp : v.Apart {tempFileName number}) {old : Nat}
    (hold : old ≠ number) (hline : v.read currentFileName = some (currentLine old))
    (h : io.createManifest cur C number records v = some (.ok, calls)) {db : FilesInUse}
    {filenames deleted : List FileName} (hdelete : db.deleteObsoleteFiles filenames = some deleted) :
    ∃ w, ((v.after calls).after (deleted.map .unlink)).Crash w ∧
      (∀ vs : VersionSet, vs.recoverFrom C w = vs.recoverFrom C v) ∧
      ∀ name ∈ deleted, w.read name = none := by
  rcases createManifest_cases hnumber h with ⟨hno, -⟩ | ⟨-, v', hv', hset, rfl⟩
  · exact absurd rfl hno
  have htmp' : v'.Apart {tempFileName number} :=
    hv' ▸ apart_created hman htmp (by simp [Volume.KeepsNames])
  rcases setCurrentFile_cases hnumber cur v' with
    ⟨hno, -⟩ | ⟨-, calls, v₁, -, hwithin, hv₁, hpending, hafter, -⟩
  · exact absurd hset hno
  have hframe : Volume.Frame {descriptorFileName number} v v' :=
    hv' ▸ (Volume.Frame.refl _ v).of_front (allWithin_manifestCalls rfl) (List.prefix_refl _)
  have hframe' : Volume.Frame {tempFileName number} v' v₁ :=
    hv₁ ▸ (Volume.Frame.refl _ v').of_front hwithin (List.prefix_refl _)
  have hread₁ (name : FileName) (hne : name ≠ descriptorFileName number)
      (hne' : name ≠ tempFileName number) : v₁.read name = v.read name :=
    (hframe'.read htmp' hne').trans (hframe.read hman hne)
  have hsynced : v₁.synced = v₁.names := by rw [Volume.names, hpending, List.foldl_nil]
  rw [Volume.after_append, ← hv', hafter]
  obtain ⟨w, hcrash, hnames, hcontents⟩ := Volume.exists_crash_unlink { v₁ with
    pending := [.move (tempFileName number) currentFileName (v'.fd (tempFileName number))] } deleted
  have hread (name : FileName) : w.read name = if name ∈ deleted then none else v₁.read name := by
    rw [Volume.read, hnames, hsynced, Volume.read]
    split
    · rfl
    · exact Option.map_congr fun i _ => hcontents i
  obtain ⟨hcurrent, hmanifests⟩ := FilesInUse.not_mem_deleteObsoleteFiles hdelete
  refine ⟨w, hcrash, recoverFrom_congr (T := {name | name = descriptorFileName number ∨
    name = tempFileName number ∨ name ∈ deleted}) (fun name hname => ?_) ?_ fun line hline' => ?_,
    fun name hname => (hread name).trans (if_pos hname)⟩
  · obtain ⟨hne, hrest⟩ := not_or.mp hname
    obtain ⟨hne', hkept⟩ := not_or.mp hrest
    rw [hread, if_neg hkept, hread₁ name hne hne']
  · rintro (heq | heq | hmem)
    · exact descriptorFileName_ne_currentFileName number heq.symm
    · exact currentFileName_ne_tempFileName number heq
    · exact hcurrent hmem
  · cases hline.symm.trans hline'
    rw [chars_currentLine, List.dropLast_concat]
    rintro (heq | heq | hmem)
    · exact hold (descriptorFileName_injective heq)
    · exact descriptorFileName_ne_tempFileName old number heq
    · exact hmanifests old hmem

/-- A log is deleted behind the second manifest of a new database. -/
theorem PosixIo.deleteObsoleteFiles_crash_log :
    ∃ calls, PosixIo.createManifest {} {} .castagnoli 2 [[], [0, 3, 1, 4, 2, 0]] newDbFiles =
        some (.ok, calls) ∧
      ∃ w, ((newDbFiles.after calls).after ([logFileName 3].map .unlink)).Crash w ∧
        (∀ vs : VersionSet, vs.recoverFrom .castagnoli w =
          vs.recoverFrom .castagnoli newDbFiles) ∧
        ∀ name ∈ [logFileName 3], w.read name = none := by
  obtain ⟨calls, h⟩ := exists_createManifest .castagnoli 2 [[], [0, 3, 1, 4, 2, 0]] newDbFiles
  have hdelete : ({ versions := { logNumber := 4 } } : FilesInUse).deleteObsoleteFiles
      [currentFileName, logFileName 3] = some [logFileName 3] := by decide +kernel
  exact ⟨calls, h, deleteObsoleteFiles_crash (by decide) (apart_newDbFiles (by decide) (by decide))
    (apart_newDbFiles (by decide) (by decide)) (by decide : 1 ≠ 2) read_newDbFiles h hdelete⟩

/-! ## A new database -/

namespace PosixIo

/-- `DBImpl::NewDB` on a volume. `io` has the states of the calls on the manifest, and `cur` those of
`SetCurrentFile`. -/
protected def newDb (io cur : PosixIo) (C : Crc32c) (v : DbVolume) : Option (State × List DbCall) :=
  let man := descriptorFileName 1
  if io.newWritableFile ≠ .ok then some (io.newWritableFile, [])
  else
    (WalWriter.appendAll C (.new WritableFile.empty) [newDbEdit.encodeTo]).map fun w =>
      let (s, close) := io.closeFile (v.fd man) w.file.buf
      let calls := [.create man, .write (v.fd man) w.file.disk] ++ close
      if s ≠ .ok then (s, calls ++ io.delete man)
      else
        let (s, set) := cur.setCurrentFile 1 (v.after calls)
        (s, calls ++ set)

/-- The record of `NewDB`, in its file. -/
def newDbRecord : PhysRecord := ⟨0, 0, .full, newDbEdit.encodeTo⟩

/-- The calls of `NewDB` on its manifest. -/
def newDbCalls (C : Crc32c) (v : DbVolume) : List DbCall :=
  let fd := v.fd (descriptorFileName 1)
  [.create (descriptorFileName 1), .write fd (newDbRecord.bytes C), .write fd []]

theorem size_newDbRecord : newDbRecord.size = 13 := by decide +kernel

theorem emission_newDbEdit : WalWriter.emission 0 [newDbEdit.encodeTo] = [newDbRecord] := by
  have hne : newDbEdit.encodeTo ≠ [] := VersionEdit.encodeTo_ne_nil (by decide)
  have hfits : newDbEdit.encodeTo.length ≤ available 0 := by decide +kernel
  simp only [WalWriter.emission, List.append_nil]
  exact fragments_take_of_fits hne hfits

theorem logBytes_newDbEdit : logBytes C [newDbEdit.encodeTo] = newDbRecord.bytes C := by
  rw [logBytes, emission_newDbEdit, List.flatMap_singleton]

theorem newDb_ok (h : io.newDb cur C v = some (.ok, calls)) :
    ∃ v', v' = v.after (newDbCalls C v) ∧ (cur.setCurrentFile 1 v').1 = .ok ∧
      calls = newDbCalls C v ++ (cur.setCurrentFile 1 v').2 := by
  rw [PosixIo.newDb, WalWriter.appendAll_written] at h
  split at h
  · next hopen => exact absurd (congrArg Prod.fst (Option.some.inj h)) hopen
  simp only [Option.map_some, WalWriter.buf_written, WalWriter.disk_written, logBytes_newDbEdit,
    Option.some.injEq] at h
  by_cases hs : (io.closeFile (v.fd (descriptorFileName 1)) []).1 = .ok
  · have hclose : io.closeFile (v.fd (descriptorFileName 1)) [] =
        (.ok, [.write (v.fd (descriptorFileName 1)) []]) := by
      rw [closeFile] at hs ⊢
      split_ifs at hs ⊢ <;> simp_all
    have hcalls : [.create (descriptorFileName 1),
        .write (v.fd (descriptorFileName 1)) (newDbRecord.bytes C)] ++
          [.write (v.fd (descriptorFileName 1)) []] = newDbCalls C v := rfl
    simp only [hclose, hcalls, ne_eq, not_true_eq_false, if_false] at h
    obtain ⟨hset, rfl⟩ := Prod.mk.inj h
    exact ⟨_, rfl, hset, rfl⟩
  · simp only [ne_eq, hs, not_false_eq_true, if_true] at h
    exact absurd (congrArg Prod.fst h) hs

/-- What the reader makes of a front of the record. -/
theorem readRecords_newDb {p : Bytes} (hp : p <+: newDbRecord.bytes C) :
    Reader.readRecords C (.new ⟨p⟩ true 0) = if p = [] then none
      else if p = newDbRecord.bytes C then some [newDbEdit.encodeTo] else some [] := by
  have hbytes : [newDbRecord].flatMap (PhysRecord.bytes C) = newDbRecord.bytes C :=
    List.flatMap_singleton ..
  have hchain : Chained 0 [newDbRecord] := emission_newDbEdit ▸ emission_chained 0 _
  have hle := hp.length_le
  rw [PhysRecord.length_bytes, size_newDbRecord] at hle
  have htake : p = (newDbRecord.bytes C).take p.length := List.prefix_iff_eq_take.mp hp
  have hat : Reader.At kBlockSize (([newDbRecord].flatMap (PhysRecord.bytes C)).take p.length)
      (.new ⟨p⟩ true 0) := by
    rw [hbytes, ← htake]
    exact Reader.at_new p
  have hfull : ∀ e ∈ [newDbRecord], e.type = .full := by simp [newDbRecord]
  have hread := hat.readRecords_contained (by decide) hchain.of_zero
    (by rw [hbytes, PhysRecord.length_bytes, size_newDbRecord]; exact hle) hfull
  rw [hread, Nat.add_mod_left, kBlockSize_eq, Nat.mod_eq_of_lt (by omega)]
  refine if_congr List.length_eq_zero_iff rfl ?_
  by_cases hall : p = newDbRecord.bytes C
  · rw [if_pos hall, contained, hall, PhysRecord.length_bytes, if_pos (Nat.le_refl _)]
    rfl
  · have hlt : ¬ newDbRecord.size ≤ p.length := by
      intro hge
      exact hall (hp.eq_of_length_le (by rwa [PhysRecord.length_bytes]))
    rw [if_neg hall, contained, if_neg hlt]
    rfl

/-- `Recover` opens a new database exactly if its manifest is whole. -/
theorem recoverFrom_newDb_iff {p : Bytes} (hp : p <+: newDbRecord.bytes C)
    (hcurrent : w.read currentFileName = some (currentLine 1))
    (hmanifest : w.read (descriptorFileName 1) = some p) :
    (∃ vs, VersionSet.recoverFrom C {} w = some (.ok, true, vs)) ↔ p = newDbRecord.bytes C := by
  rw [recoverFrom_eq hcurrent hmanifest, readRecords_newDb hp]
  have hne : newDbRecord.bytes C ≠ [] := by
    rw [ne_eq, ← List.length_eq_zero_iff, PhysRecord.length_bytes, size_newDbRecord]
    decide
  split
  · next hnil =>
    rw [hnil]
    refine iff_of_false ?_ (Ne.symm hne)
    rintro ⟨vs, ⟨⟩⟩
  split
  · next hall =>
    have hrecords : newDb.manifests (descriptorFileName 1) = some [newDbEdit.encodeTo] := by
      have henc : newDbEdit.encodeTo ≠ [] := VersionEdit.encodeTo_ne_nil (by decide)
      simp [Yubindb.newDb, Disk.newDb, Disk.create, Disk.appendRecord, Disk.setCurrentFile, henc]
    have hrecover := @VersionSet.recover_eq {} newDb (descriptorFileName 1) _ rfl hrecords
    rw [Option.bind_some, ← hrecover, recover_newDb]
    exact iff_of_true ⟨_, rfl⟩ hall
  · next hall =>
    refine iff_of_false ?_ hall
    rintro ⟨vs, ⟨⟩⟩

/-- `NewDB` does not sync the manifest: behind its success, a power failure can leave each front of the
record under the new `CURRENT`, and nothing else; and `Recover` accepts the whole record only. -/
theorem newDb_crash_iff (hman : v.Apart {descriptorFileName 1}) (htmp : v.Apart {tempFileName 1})
    (hnew : v.names (descriptorFileName 1) = none) (h : io.newDb cur C v = some (.ok, calls))
    (p : Bytes) :
    (p <+: newDbRecord.bytes C ↔ ∃ w, (v.after calls).Crash w ∧
      w.read currentFileName = some (currentLine 1) ∧ w.read (descriptorFileName 1) = some p) ∧
    ∀ w, (v.after calls).Crash w → w.read currentFileName = some (currentLine 1) →
      w.read (descriptorFileName 1) = some p →
        ((∃ vs, VersionSet.recoverFrom C {} w = some (.ok, true, vs)) ↔ p = newDbRecord.bytes C) := by
  obtain ⟨v', hv', hset, rfl⟩ := newDb_ok h
  have hfd : v.fd (descriptorFileName 1) = v.next := by rw [Volume.fd, hnew, Option.getD_none]
  have happ : v'.Appended v.next [] (newDbRecord.bytes C) := by
    have hwritten := ((Volume.Appended.create hnew).write (newDbRecord.bytes C)).write []
    rw [List.append_nil, List.nil_append] at hwritten
    rw [hv', newDbCalls, hfd]
    exact hwritten
  have hname : v'.names (descriptorFileName 1) = some v.next := by
    rw [hv', ← hfd]
    exact v.names_create _
  have htmp' : v'.Apart {tempFileName 1} :=
    hv' ▸ apart_created hman htmp (by simp [Volume.KeepsNames])
  obtain ⟨hcur, -, hline, hother⟩ := setCurrentFile_ok (by decide) htmp' hset
  obtain ⟨hbound, hinode, hne⟩ := hother _ _ (descriptorFileName_ne_tempFileName 1 1)
    (descriptorFileName_ne_currentFileName 1) hname
  have hnext := v'.next_le_after (cur.setCurrentFile 1 v').2
  rw [Volume.after_append, ← hv']
  generalize v'.after (cur.setCurrentFile 1 v').2 = v₂ at hcur hline hbound hinode hnext
  have happ₂ : v₂.Appended v.next [] (newDbRecord.bytes C) :=
    ⟨happ.lt.trans_le hnext, hinode ▸ happ.synced, hinode ▸ happ.pending⟩
  have hfront {w : DbVolume} (hcrash : v₂.Crash w)
      (hmanifest : w.read (descriptorFileName 1) = some p) : p <+: newDbRecord.bytes C := by
    obtain ⟨front, hfront, hread⟩ := hbound.crash happ₂ hcrash
    cases hread.symm.trans hmanifest
    exact hfront
  refine ⟨⟨fun hp => ?_, ?_⟩, fun w hcrash hcurrent hmanifest =>
    recoverFrom_newDb_iff (hfront hcrash hmanifest) hcurrent hmanifest⟩
  swap
  · rintro ⟨w, hcrash, -, hmanifest⟩
    exact hfront hcrash hmanifest
  obtain ⟨w, hcrash, hnames, hcontents, hrest⟩ := happ₂.exists_crash hp
  refine ⟨w, hcrash, ?_, ?_⟩
  · rw [Volume.read, hnames, hcur, Option.map_some, hrest _ hne.symm, hline]
  · rw [Volume.read, hnames, hbound.names, Option.map_some, hcontents, List.nil_append]

/-- In an empty directory. -/
theorem newDb_crash_iff_empty :
    ∃ calls, PosixIo.newDb {} {} .castagnoli {} = some (.ok, calls) ∧
      ([] <+: newDbRecord.bytes .castagnoli ↔ ∃ w, (Volume.after {} calls).Crash w ∧
        w.read currentFileName = some (currentLine 1) ∧
        w.read (descriptorFileName 1) = some []) ∧
      ∀ w, (Volume.after {} calls).Crash w → w.read currentFileName = some (currentLine 1) →
        w.read (descriptorFileName 1) = some [] →
          ((∃ vs, VersionSet.recoverFrom .castagnoli {} w = some (.ok, true, vs)) ↔
            [] = newDbRecord.bytes .castagnoli) := by
  have h : ∃ calls, PosixIo.newDb {} {} .castagnoli {} = some (.ok, calls) := by
    rw [PosixIo.newDb, WalWriter.appendAll_written]
    simp [closeFile, setCurrentFile, writeStringToFile, PosixIo.sync]
  obtain ⟨calls, h⟩ := h
  have hapart (name : FileName) : Volume.Apart ({} : DbVolume) {name} :=
    show (Volume.ofFiles [] : DbVolume).Apart {name} from
      Volume.apart_ofFiles (List.forall_mem_nil _)
  exact ⟨calls, h, newDb_crash_iff (hapart _) (hapart _) rfl h []⟩

end PosixIo

end Yubindb
