import Mathlib.Data.Set.Insert
import Yubindb.Theory.CrashFiles
import Yubindb.Util.Env
import Yubindb.Util.FileName

/-!
# Files on a disk

`WritableFile::Sync`, `WritableFile::SyncDirmainifset`, `WriteStringToFile` and `SetCurrentFile` in
`src/util/env.cpp`, by the calls that they make on a volume, with the states that these return.
-/

namespace Yubindb

/-- A volume with the files of the database. -/
abbrev DbVolume := Volume FileName UInt8

abbrev DbCall := Syscall FileName UInt8

/-- The states that the calls on one file return. -/
structure PosixIo where
  newWritableFile : State := .ok
  syncDir : State := .ok
  write : State := .ok
  fsync : State := .ok
  rename : State := .ok
  close : State := .ok
  deleteFile : State := .ok

/-- `Ismanifest`: `compare` gives 0 for a manifest, so that it is the other names that are taken for
one. -/
def ismanifest (filename : FileName) : Bool := filename.take 8 ≠ "MANIFEST".toList

/-- The bytes of a name. -/
def FileName.bytes (name : FileName) : Bytes := name.map fun c => UInt8.ofNat c.toNat

/-- The line that `SetCurrentFile` writes. -/
def currentLine (number : Nat) : Bytes := FileName.bytes (descriptorFileName number ++ ['\n'])

namespace PosixIo

/-- `WritableFile::Sync`, on the file with this name, number and buffer. -/
def sync (io : PosixIo) (filestr : FileName) (fd : Nat) (buf : Bytes) : State × List DbCall :=
  let dir := if ismanifest filestr then [.fsyncDir] else []
  if ismanifest filestr ∧ io.syncDir ≠ .ok then (io.syncDir, [])
  else if io.write ≠ .ok then (io.write, dir)
  else if io.fsync ≠ .ok then (io.fsync, dir ++ [.write fd buf])
  else (.ok, dir ++ [.write fd buf, .fsync fd])

/-- `WritableFile::Close`: there is no `fsync`. -/
def closeFile (io : PosixIo) (fd : Nat) (buf : Bytes) : State × List DbCall :=
  if io.write ≠ .ok then (io.write, []) else (io.close, [.write fd buf])

/-- `PosixEnv::DeleteFile`. -/
def delete (io : PosixIo) (filename : FileName) : List DbCall :=
  if io.deleteFile = .ok then [.unlink filename] else []

/-- `WriteStringToFile`. -/
def writeStringToFile (io : PosixIo) (data : Bytes) (fname : FileName) (sync : Bool)
    (v : DbVolume) : State × List DbCall :=
  if io.newWritableFile ≠ .ok then (io.newWritableFile, [])
  else
    let f := (WritableFile.empty.append data).2
    let (s, calls) := if sync then io.sync fname (v.fd fname) f.buf else (.ok, [])
    let calls := [.create fname, .write (v.fd fname) f.disk] ++ calls
    if s ≠ .ok then (s, calls ++ io.delete fname) else (s, calls)

/-- `SetCurrentFile`. -/
def setCurrentFile (io : PosixIo) (number : Nat) (v : DbVolume) : State × List DbCall :=
  let tmp := tempFileName number
  let (s, calls) := io.writeStringToFile (currentLine number) tmp true v
  if s ≠ .ok then (s, calls ++ io.delete tmp)
  else if io.rename ≠ .ok then (io.rename, calls ++ io.delete tmp)
  else (.ok, calls ++ [.rename tmp currentFileName])

end PosixIo

/-! ## Names -/

theorem ismanifest_makeFileName (number : Nat) (suffix : FileName) :
    ismanifest (makeFileName number suffix) = true := by
  refine decide_eq_true fun h => ?_
  obtain ⟨c, cs, hc⟩ := List.exists_cons_of_ne_nil (padded_ne_nil number)
  have hdigit : c.isDigit := isDigit_of_mem_padded (hc ▸ List.mem_cons_self)
  rw [makeFileName, hc, List.cons_append, List.take_succ_cons] at h
  cases (List.cons.inj h).1
  cases hdigit

theorem not_ismanifest_descriptorFileName (number : Nat) :
    ismanifest (descriptorFileName number) = false := by
  refine decide_eq_false (not_not.mpr ?_)
  rfl

theorem currentFileName_ne_tempFileName (number : Nat) : currentFileName ≠ tempFileName number := by
  intro h
  obtain ⟨c, cs, hc⟩ := List.exists_cons_of_ne_nil (padded_ne_nil number)
  have hdigit : c.isDigit := isDigit_of_mem_padded (hc ▸ List.mem_cons_self)
  rw [tempFileName, makeFileName, hc, List.cons_append] at h
  cases (List.cons.inj h).1
  cases hdigit

theorem length_currentLine {number : Nat} (h : number < 2 ^ 64) :
    (currentLine number).length ≤ kWritableFileBufferSize := by
  have hbound : number < 10 ^ 20 := h.trans (by norm_num)
  have hdigits : (Nat.toDigits 10 number).length ≤ 20 :=
    (Nat.length_toDigits_le_iff (by decide) (by decide)).mpr hbound
  have hpadded : (padded number).length ≤ 20 := by
    rw [padded, List.length_append, List.length_replicate]
    omega
  have hname : (descriptorFileName number).length = "MANIFEST-".toList.length +
      (padded number).length := List.length_append
  have hmanifest : "MANIFEST-".toList.length = 9 := by decide
  have hline : (descriptorFileName number ++ ['\n']).length =
      (descriptorFileName number).length + 1 := List.length_append
  have hcap : kWritableFileBufferSize = 65536 := rfl
  rw [currentLine, FileName.bytes, List.length_map]
  omega

/-! ## What the calls do -/

namespace PosixIo
variable {io : PosixIo} {data : Bytes} {fname : FileName} {v : DbVolume} {T : Set FileName}

theorem allWithin_delete (h : fname ∈ T) : Volume.AllWithin T v (io.delete fname) := by
  rw [delete]
  split
  · exact ⟨h, trivial⟩
  · trivial

theorem allWithin_sync {fd : Nat} {buf : Bytes} (hfname : fname ∈ T)
    (hfd : v.names fname = some fd) : Volume.AllWithin T v (io.sync fname fd buf).2 := by
  have hfile : ∃ name ∈ T, v.names name = some fd := ⟨fname, hfname, hfd⟩
  rw [PosixIo.sync]
  split_ifs <;> simp [Volume.AllWithin, Volume.Within, hfile]

theorem allWithin_writeStringToFile (hfname : fname ∈ T) (sync : Bool) :
    Volume.AllWithin T v (io.writeStringToFile data fname sync v).2 := by
  have hfd : (v.after [.create fname, .write (v.fd fname)
      (WritableFile.empty.append data).2.disk]).names fname = some (v.fd fname) :=
    v.names_create fname
  have hwrite : Volume.AllWithin T v [.create fname, .write (v.fd fname)
      (WritableFile.empty.append data).2.disk] :=
    ⟨hfname, ⟨fname, hfname, v.names_create fname⟩, trivial⟩
  have hsync : Volume.AllWithin T (v.after [.create fname, .write (v.fd fname)
      (WritableFile.empty.append data).2.disk]) (if sync then io.sync fname (v.fd fname)
        (WritableFile.empty.append data).2.buf else (.ok, [])).2 := by
    split
    · exact allWithin_sync hfname hfd
    · trivial
  rw [writeStringToFile]
  split
  · trivial
  dsimp only
  generalize (if sync then io.sync fname (v.fd fname) (WritableFile.empty.append data).2.buf
    else (.ok, [])) = r at hsync ⊢
  have hcalls := Volume.allWithin_append.mpr ⟨hwrite, hsync⟩
  split
  · exact Volume.allWithin_append.mpr ⟨hcalls, allWithin_delete hfname⟩
  · exact hcalls

/-- Behind a success the data is on the medium, and so are the names: the flag of `Ismanifest` is set
for every name but that of a manifest. -/
theorem writeStringToFile_ok (hname : ismanifest fname = true)
    (hok : (io.writeStringToFile data fname true v).1 = .ok) :
    let v' := v.after (io.writeStringToFile data fname true v).2
    v'.pending = [] ∧ v'.names fname = some (v.fd fname) ∧
      (v'.inodes (v.fd fname)).pending = [] ∧
      (v'.inodes (v.fd fname)).contents = (WritableFile.empty.append data).2.stream := by
  have hcalls : (io.writeStringToFile data fname true v).2 = [.create fname,
      .write (v.fd fname) (WritableFile.empty.append data).2.disk, .fsyncDir,
      .write (v.fd fname) (WritableFile.empty.append data).2.buf, .fsync (v.fd fname)] := by
    simp only [writeStringToFile, PosixIo.sync, hname] at hok ⊢
    split_ifs at hok ⊢ <;> simp_all
  rw [hcalls]
  refine ⟨rfl, v.names_create fname, ?_, ?_⟩
  · simp [Volume.after]
  · simp [Volume.after, WritableFile.stream]

/-! ## `SetCurrentFile` -/

/-- The line, as a process reads it. -/
theorem stream_currentLine {number : Nat} (h : number < 2 ^ 64) :
    (WritableFile.empty.append (currentLine number)).2.stream = currentLine number := by
  have hfits : (WritableFile.empty).buf.length + (currentLine number).length ≤
      kWritableFileBufferSize := (Nat.zero_add _).trans_le (length_currentLine h)
  rw [WritableFile.append_of_fits hfits]
  rfl

/-- `SetCurrentFile` fails with changes to the temporary name only. Or it succeeds, and the renaming at its
end is the only change to the directory that is pending; the file has the whole line then. -/
theorem setCurrentFile_cases {number : Nat} (hnumber : number < 2 ^ 64) (io : PosixIo)
    (v : DbVolume) :
    let r := io.setCurrentFile number v
    let tmp := tempFileName number
    let fd := v.fd tmp
    r.1 ≠ .ok ∧ Volume.AllWithin {tmp} v r.2 ∨
      r.1 = .ok ∧ ∃ calls v', r.2 = calls ++ [.rename tmp currentFileName] ∧
        Volume.AllWithin {tmp} v calls ∧ v' = v.after calls ∧ v'.pending = [] ∧
        v.after r.2 = { v' with pending := [.move tmp currentFileName fd] } ∧
        (v'.inodes fd).pending = [] ∧ (v'.inodes fd).contents = currentLine number := by
  have hwrite : Volume.AllWithin {tempFileName number} v
      (io.writeStringToFile (currentLine number) (tempFileName number) true v).2 :=
    allWithin_writeStringToFile (Set.mem_singleton _) true
  have hname : ismanifest (tempFileName number) = true := ismanifest_makeFileName number _
  have hdelete : ∀ v, Volume.AllWithin {tempFileName number} v (io.delete (tempFileName number)) :=
    fun v => allWithin_delete (Set.mem_singleton _)
  simp only [setCurrentFile]
  split
  · next hs => exact .inl ⟨hs, Volume.allWithin_append.mpr ⟨hwrite, hdelete _⟩⟩
  split
  · next hs => exact .inl ⟨hs, Volume.allWithin_append.mpr ⟨hwrite, hdelete _⟩⟩
  · next hs _ =>
    obtain ⟨hpending, htmp, hsynced, hcontents⟩ := writeStringToFile_ok hname (not_not.mp hs)
    rw [stream_currentLine hnumber] at hcontents
    refine .inr ⟨rfl, _, _, rfl, hwrite, rfl, hpending, ?_, hsynced, hcontents⟩
    rw [Volume.after_append]
    refine (Volume.run_rename htmp).trans ?_
    rw [hpending, List.nil_append]

/-- Behind a success, `CURRENT` is the temporary file, with the whole line; other names are on the
medium, and their files are as before. -/
theorem setCurrentFile_ok {number : Nat} (hnumber : number < 2 ^ 64)
    (hapart : v.Apart {tempFileName number}) (hok : (io.setCurrentFile number v).1 = .ok) :
    let v' := v.after (io.setCurrentFile number v).2
    let fd := v.fd (tempFileName number)
    v'.names currentFileName = some fd ∧ (v'.inodes fd).pending = [] ∧
      (v'.inodes fd).contents = currentLine number ∧
      ∀ name inode, name ≠ tempFileName number → name ≠ currentFileName →
        v.names name = some inode →
          v'.Bound name inode ∧ v'.inodes inode = v.inodes inode ∧ inode ≠ fd := by
  rcases setCurrentFile_cases hnumber io v with
    ⟨hno, -⟩ | ⟨-, calls, v', -, hwithin, rfl, hpending, hafter, hsynced, hcontents⟩
  · exact absurd hok hno
  have hframe := (Volume.Frame.refl {tempFileName number} v).of_front hwithin (List.prefix_refl _)
  simp only [hafter]
  generalize v.after calls = v' at hpending hsynced hcontents hframe
  have happend : ({ v' with pending := [NameOp.move (tempFileName number) currentFileName
      (v.fd (tempFileName number))] } : DbVolume) = { v' with pending := v'.pending ++
        [NameOp.move (tempFileName number) currentFileName (v.fd (tempFileName number))] } := by
    rw [hpending, List.nil_append]
  refine ⟨?_, hsynced, hcontents, fun name inode hne hcur hname => ?_⟩
  · rw [happend, Volume.names_append, NameOp.run, Function.update_self]
  have hother := hapart name hne inode (Volume.mayName_of_names hname)
  refine ⟨?_, hframe.inodes inode hother, ?_⟩
  · rw [happend]
    refine Volume.Bound.rename ?_ _ (T := {tempFileName number, currentFileName})
      ⟨.inl rfl, .inr rfl⟩ fun hmem => hmem.elim hne hcur
    intro names hout
    have hnow : v'.names = v'.synced := by rw [Volume.names, hpending, List.foldl_nil]
    rw [Volume.outcome_of_pending hpending hout, ← hnow, hframe.names name hne, hname]
  · rintro rfl
    refine hother ?_
    rw [Volume.fd]
    cases hfile : v.names (tempFileName number) with
    | some i => exact .inr ⟨_, rfl, hfile⟩
    | none => exact .inl (Nat.le_refl _)

end PosixIo
end Yubindb
