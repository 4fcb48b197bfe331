import Yubindb.Db.ManifestRecovery
import Yubindb.Db.Recovery

/-!
# Creating a database

`Open` on a directory without `CURRENT` and without logs.
-/

namespace Yubindb

/-- What `Open` leaves of a database that it has created. -/
structure Opened.New (db : Opened) : Prop where
  mem : db.mem = {}
  logfilenum : db.logfilenum = 3
  tables : db.tables = []
  nextFileNumber : db.versions.nextFileNumber = 4
  lastSequence : db.versions.lastSequence = 0
  logNumber : db.versions.logNumber = 3
  files : db.versions.nowversion.files = fun _ => []
  versionlist : ∀ files ∈ db.versions.versionlist, files = fun _ => []

namespace VersionSet
variable {vs vs' : VersionSet} {disk disk' : Disk} {edit : VersionEdit} {io : ManifestIo} {s : State}

theorem logAndApply_versionlist (h : vs.logAndApply disk edit io = some (.ok, vs', disk')) :
    vs'.versionlist = vs'.nowversion.files :: vs.versionlist := by
  obtain ⟨v, d, -, rfl⟩ := logAndApply_eq_ok h
  rfl

end VersionSet

namespace Dir
variable {C : Crc32c} {limit : Nat} {io : OpenIo} {dir : Dir} {db : Opened}

theorem recover_new {r : LogReplay} (hcurrent : dir.disk.current = none)
    (hlogs : ∀ name, dir.logs name = none) (h : dir.recover C limit io = some (.ok, r)) :
    r = { versions := newVersionSet, saveManifest := true } := by
  have hdisk : dir.withCurrent = { dir with disk := dir.disk.newDb } := by
    rw [withCurrent, hcurrent]
    rfl
  obtain ⟨save, vs, expected, numbers, hrecover, -, h⟩ := recover_stages h
  rw [hdisk, Disk.recover_newDb] at hrecover
  cases hrecover
  generalize numbers.mergeSort (· ≤ ·) = sorted at h
  cases sorted with
  | nil =>
    cases h
    rfl
  | cons number numbers =>
    obtain ⟨⟨s, r₁⟩, hfile, h⟩ := Option.bind_eq_some_iff.mp h
    rw [LogReplay.recoverLogFile, hlogs] at hfile
    split at hfile
    · cases hfile
    · cases hfile
      cases h

theorem open_new (hcurrent : dir.disk.current = none) (hlogs : ∀ name, dir.logs name = none)
    (h : dir.open C limit io = some (.ok, some db)) : db.New := by
  obtain ⟨r, versions, disk, hrecover, rfl, happly⟩ := open_stages h
  cases recover_new hcurrent hlogs hrecover
  rw [if_pos rfl] at happly
  have hinstalls := VersionSet.logAndApply_installs happly
  have hfiles : versions.nowversion.files = fun _ => [] := by
    refine funext fun level => List.eq_nil_iff_forall_not_mem.mpr fun f hf => ?_
    rcases (hinstalls.has level f.num).mp ⟨f, hf, rfl⟩ with ⟨g, hg, -⟩ | ⟨⟨g, hg, -⟩, -⟩
    · cases hg
    · cases hg
  refine ⟨rfl, rfl, rfl, hinstalls.nextFileNumber, hinstalls.lastSequence,
    (Option.some.inj hinstalls.logNumber).symm, hfiles, fun files hmem => ?_⟩
  rw [VersionSet.logAndApply_versionlist happly] at hmem
  rcases List.mem_cons.mp hmem with rfl | hmem
  · exact hfiles
  · simp only [VersionSet.newFileNumber, newVersionSet, VersionSet.installRecovered] at hmem
    rcases List.mem_cons.mp hmem with rfl | hmem
    · rfl
    · exact List.mem_singleton.mp hmem

/-- `Open` creates a database when nothing fails. -/
theorem exists_open_new (C : Crc32c) (limit : Nat) :
    ∃ db, ({} : Dir).open C limit {} = some (.ok, some db) := by
  have hdisk : ({} : Dir).withCurrent = { disk := newDb } := rfl
  have hrecover : ({} : Dir).recover C limit {} =
      some (.ok, { versions := newVersionSet, saveManifest := true }) := by
    have hscan : scanFiles newVersionSet.logNumber ({} : Dir).filenames
        (newVersionSet.addLiveFiles ∅) = some (∅, []) := rfl
    rw [recover, if_neg (not_not.mpr rfl), if_neg (fun h => absurd rfl h.2), hdisk, recover_newDb]
    dsimp only [Option.bind_eq_bind, Option.bind_some]
    rw [if_neg (not_not.mpr rfl), if_neg (not_not.mpr rfl), hscan]
    dsimp only [Option.bind_some]
    rw [if_neg Finset.not_nonempty_empty, List.mergeSort_nil]
    rfl
  have happly : (newVersionSet.newFileNumber.2.logAndApply newDb
      (({} : VersionEdit).setLogNumber 3) {}).isSome := by rfl
  obtain ⟨⟨s, versions, disk⟩, happly⟩ := Option.isSome_iff_exists.mp happly
  cases VersionSet.logAndApply_ok happly
  have hnumber : newVersionSet.newFileNumber.1 = 3 := rfl
  refine ⟨⟨versions, disk, {}, 3, ({} : VersionEdit).setLogNumber 3, []⟩, ?_⟩
  rw [Dir.open, hrecover, hdisk]
  dsimp only [Option.bind_eq_bind, Option.bind_some]
  rw [hnumber, if_neg (not_not.mpr rfl), if_neg (by decide), if_neg (not_not.mpr rfl), if_pos rfl,
    happly]
  rfl

end Dir
end Yubindb
