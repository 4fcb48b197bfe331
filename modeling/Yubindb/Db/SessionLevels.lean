import Yubindb.Db.CompactionTrigger
import Yubindb.Db.SessionReads

/-!
# The levels of a session

Behind `Open`, `nowversion` has the tables of the replay only, and a flush puts its table on level 0.
No version of a session has a file on another level, and none is worth a compaction.
-/

namespace Yubindb

/-! ## Versions of one level -/

/-- All files are on level 0. -/
def Version.Flat (v : Version) : Prop := ∀ level : Level, level ≠ 0 → v.files level = []

namespace Builder
variable {base v : Version} {edit : VersionEdit}

theorem compactionScore_saveTo {b : Builder} (h : b.saveTo = some v) : v.compactionScore = -1 := by
  rw [saveTo] at h
  split at h
  · cases h
    rfl
  · cases h

/-- An edit that adds to level 0 only. -/
theorem flat_saveTo (h : (({ base } : Builder).apply edit).saveTo = some v) (hbase : base.Flat)
    (hadds : ∀ level n, edit.Adds level n → level = 0) : v.Flat := by
  intro level hlevel
  refine List.eq_nil_iff_forall_not_mem.mpr fun f hf => ?_
  rcases (has_saveTo_apply h).mp ⟨f, hf, rfl⟩ with hadd | ⟨⟨g, hg, -⟩, -⟩
  · exact hlevel (hadds level f.num hadd)
  · rw [hbase level hlevel] at hg
    cases hg

/-- `SaveTo` keeps the files that it does not delete, in their order. -/
theorem sublist_saveLevel {deleted : Finset Nat} {base added : List FileMate}
    (hkeep : ∀ f ∈ base, f.num ∉ deleted) : base.Sublist (saveLevel deleted base added) := by
  have hfilter {fs : List FileMate} (h : ∀ f ∈ fs, f.num ∉ deleted) :
      fs.filter (keepFile deleted) = fs :=
    List.filter_eq_self.mpr fun f hf => decide_eq_true (h f hf)
  induction added generalizing base with
  | nil =>
    rw [saveLevel, hfilter hkeep]
  | cons a as ih =>
    rw [saveLevel, hfilter fun f hf => hkeep f (List.takeWhile_subset _ hf), List.append_assoc]
    conv_lhs => rw [← List.takeWhile_append_dropWhile (l := base)
      (p := fun f => ¬ bySmallestKey a f = .lt)]
    refine (List.Sublist.refl _).append ((ih fun f hf => hkeep f ?_).trans
      (List.sublist_append_right _ _))
    exact (List.dropWhile_sublist _).subset hf

theorem sublist_saveTo (h : (({ base } : Builder).apply edit).saveTo = some v)
    (hdeletes : edit.deletedFiles = ∅) (level : Level) :
    (base.files level).Sublist (v.files level) := by
  rw [saveTo_files h]
  refine sublist_saveLevel fun f _ hdeleted => ?_
  rcases (mem_deletedFiles_apply.mp hdeleted).1 with hnone | hdel
  · exact Finset.notMem_empty _ hnone
  · rw [VersionEdit.Deletes, hdeletes] at hdel
    exact Std.ExtTreeSet.not_mem_empty hdel

end Builder

namespace VersionSet
variable {vs vs' : VersionSet} {disk disk' : Disk} {edit : VersionEdit} {io : ManifestIo}
  {a : Applying}

/-- The score that `Finalize` finds in a version of one level. -/
theorem compactionScore_finalize {v : Version} (h : v.Flat) :
    (vs.finalize v).nowversion.compactionScore = 0 := by
  obtain ⟨i, hi, hfinal, -⟩ := finalize_greatest vs v
  have hne : i ≠ 0 := by
    rintro rfl
    exact absurd hi.1 (by decide)
  rw [hfinal]
  show levelScore v.files i = 0
  rw [levelScore, if_neg hne, h i hne]
  exact zero_div _

theorem beginApply_nowversion (h : vs.beginApply disk edit io = some (vs', disk', a)) :
    vs'.nowversion = (vs.finalize a.v).nowversion := by
  rw [beginApply] at h
  split at h
  · obtain ⟨⟨vs₂, v⟩, hstage, h⟩ := Option.map_eq_some_iff.mp h
    obtain ⟨_, hv, hstage⟩ := Option.map_eq_some_iff.mp hstage
    cases hstage
    have hopen (cp : Level → Bytes) :=
      ({ vs with compactPointer := cp }.finalize v).openManifest_fst disk io
    obtain ⟨d, hd⟩ := hopen (Builder.applyCompactPointers (vs.completeEdit edit) vs.compactPointer)
    have hvs := congrArg Prod.fst h
    have ha := congrArg (fun r => r.2.2.v) h
    dsimp only at hvs ha
    rw [hd] at hvs
    rw [← hvs, ← ha]
    rfl
  · cases h

end VersionSet

/-! ## Behind `Open` -/

namespace LogReplay
variable {limit : Nat} {io : OpenIo} {r r' : LogReplay} {s : State}

/-- The edit adds the tables of the replay to level 0, and the version set has no current files. -/
structure OnlyAdds (r : LogReplay) : Prop where
  files : r.versions.nowversion.files = fun _ => []
  added : r.edit.newFiles = r.tables.map fun t => (0, t.file)
  deleted : r.edit.deletedFiles = ∅

theorem OnlyAdds.writeLevel0Table {mem : Memtable} (h : OnlyAdds r)
    (hwrite : r.writeLevel0Table io mem = (s, r')) : OnlyAdds r' := by
  rw [LogReplay.writeLevel0Table] at hwrite
  dsimp only at hwrite
  split at hwrite
  · cases hwrite
    exact ⟨h.files, h.added, h.deleted⟩
  · rw [Memtable.fileMate, if_pos (PNat.pos _)] at hwrite
    cases hwrite
    refine ⟨h.files, ?_, h.deleted⟩
    rw [List.map_append, ← h.added]
    rfl

theorem OnlyAdds.replayBatches {batches : List WriteBatch} {mem : Option Memtable} (h : OnlyAdds r)
    (hreplay : replayBatches limit io batches mem r = (.ok, r')) : OnlyAdds r' := by
  induction batches generalizing mem r with
  | nil =>
    cases hreplay
    exact h
  | cons b batches ih =>
    rw [LogReplay.replayBatches] at hreplay
    dsimp only at hreplay
    split at hreplay
    · next hs => exact absurd (congrArg Prod.fst hreplay) hs
    · next hs =>
      refine ih ?_ hreplay
      obtain ⟨m, -, hrecord⟩ := replayRecord_ok (Prod.ext (not_not.mp hs) rfl)
      split at hrecord
      · obtain ⟨-, q, hwrite⟩ := hrecord
        have hr : OnlyAdds { r with maxSequence := q, saveManifest := true } :=
          ⟨h.files, h.added, h.deleted⟩
        exact hr.writeLevel0Table hwrite
      · obtain ⟨-, q, hr⟩ := hrecord
        rw [hr]
        exact ⟨h.files, h.added, h.deleted⟩

end LogReplay

namespace Dir
variable {C : Crc32c} {limit : Nat} {io : OpenIo} {dir : Dir} {db : Opened}

theorem onlyAdds_recover {r : LogReplay} (h : dir.recover C limit io = some (.ok, r)) :
    r.OnlyAdds := by
  obtain ⟨save, vs, _, _, hrecover, -, hlogs⟩ := recover_stages h
  obtain ⟨logs, -, hadds⟩ := LogReplay.recoverLogs_induct (fun _ r => r.OnlyAdds)
    (fun _ _ _ _ _ hr hreplay => hr.replayBatches hreplay)
    ⟨VersionSet.recover_files hrecover, rfl, rfl⟩ hlogs
  exact hadds

/-- What `Open` makes current, whatever the directory has: the tables that it has just built from the
logs, on level 0. No file of the manifest is among them. -/
theorem has_open_iff (h : dir.open C limit io = some (.ok, some db)) (level : Level) (n : Nat) :
    db.versions.nowversion.Has level n ↔ level = 0 ∧ ∃ t ∈ db.tables, t.file.num = n := by
  obtain ⟨r, versions, disk, hrecover, rfl, happly⟩ := open_stages h
  rw [if_pos (saveManifest_recover hrecover)] at happly
  have hadds := onlyAdds_recover hrecover
  have hnone : ¬ r.versions.newFileNumber.2.nowversion.Has level n := by
    rintro ⟨f, hf, -⟩
    have hfiles : r.versions.newFileNumber.2.nowversion.files level = [] := congrFun hadds.files level
    rw [hfiles] at hf
    cases hf
  rw [(VersionSet.logAndApply_installs happly).has, or_iff_left fun h => hnone h.1]
  constructor
  · rintro ⟨f, hf, rfl⟩
    have hmem : (level, f) ∈ r.tables.map fun t => ((0 : Level), t.file) := hadds.added ▸ hf
    obtain ⟨t, ht, heq⟩ := List.mem_map.mp hmem
    cases heq
    exact ⟨rfl, t, ht, rfl⟩
  · rintro ⟨rfl, t, ht, rfl⟩
    refine ⟨t.file, ?_, rfl⟩
    show (0, t.file) ∈ r.edit.newFiles
    rw [hadds.added]
    exact List.mem_map.mpr ⟨t, ht, rfl⟩

theorem compactionScore_open (h : dir.open C limit io = some (.ok, some db)) :
    db.versions.nowversion.compactionScore = -1 := by
  obtain ⟨r, versions, disk, hrecover, rfl, happly⟩ := open_stages h
  rw [if_pos (saveManifest_recover hrecover)] at happly
  obtain ⟨v, d, hv, rfl⟩ := VersionSet.logAndApply_eq_ok happly
  exact Builder.compactionScore_saveTo hv

end Dir

/-! ## What a step does to the current version -/

namespace Session
variable {limit : Nat} {st st' : Session} {action : Action}

/-- A step leaves the current version alone, prepares the next one, or makes it current. -/
inductive VersionStep (st st' : Session) : Prop
  | keeps (hnow : st'.db.versions.nowversion = st.db.versions.nowversion)
      (hpc : st'.background = st.background ∨ ∀ a, st'.background ≠ .applying a)
  | stages (f : FileMate) (log : Nat) (a : VersionSet.Applying)
      (hpc : st.background = .building f.num) (hpc' : st'.background = .applying a)
      (hsave : (({ base := st.db.versions.nowversion } : Builder).apply (st.db.versions.completeEdit
        ((({} : VersionEdit).addFile 0 f).setLogNumber log))).saveTo = some a.v)
      (hnow : st'.db.versions.nowversion = (st.db.versions.finalize a.v).nowversion)
  | installs (a : VersionSet.Applying) (hpc : st.background = .applying a)
      (hnow : st'.db.versions.nowversion = a.v) (hpc' : st'.background = .idle)

theorem versionStep_of_step (hstep : step limit action st = some st') : VersionStep st st' := by
  cases action with
  | call fnt =>
    obtain ⟨-, rfl⟩ := callStep_cases hstep
    exact .keeps rfl (.inl rfl)
  | room create followers =>
    obtain ⟨fnt, -, ⟨-, vs, -, hvs, rfl⟩ | rfl | rfl | ⟨-, -, rfl⟩⟩ := roomStep_cases hstep
    · exact .keeps (advances_keeps hvs).2 (.inl rfl)
    all_goals exact .keeps rfl (.inl rfl)
  | append appended synced =>
    obtain ⟨_, _, _, -, ⟨_, -, rfl⟩ | ⟨_, rfl⟩⟩ := appendStep_cases hstep <;>
      exact .keeps rfl (.inl rfl)
  | insert =>
    obtain ⟨_, _, _, _, -, ⟨-, rfl⟩ | ⟨-, rfl⟩⟩ := insertStep_cases hstep <;>
      exact .keeps rfl (.inl rfl)
  | publish =>
    obtain ⟨_, -, rfl⟩ := publishStep_cases hstep
    exact .keeps rfl (.inl rfl)
  | build =>
    obtain ⟨-, -, -, rfl⟩ := buildStep_cases hstep
    exact .keeps rfl (.inr fun _ => BackgroundPc.noConfusion)
  | built result fileSize shuttingDown io =>
    obtain ⟨num, imm, hbuilding, -, ⟨contents, s, -, rfl⟩ | ⟨vs, disk, a, hbegin, rfl⟩⟩ :=
      builtStep_cases hstep
    · exact .keeps rfl (.inr fun _ => BackgroundPc.noConfusion)
    · obtain ⟨-, -, hedit, hv⟩ := VersionSet.beginApply_cases hbegin
      exact .stages (imm.fileMate num fileSize) st.db.logfilenum a hbuilding rfl (hedit ▸ hv)
        (VersionSet.beginApply_nowversion hbegin)
  | applied io filenames =>
    obtain ⟨a, happlying, ⟨s, disk, -, rfl⟩ | ⟨deleted, disk, -, -, rfl⟩⟩ :=
      appliedStep_cases hstep
    · exact .keeps rfl (.inr fun _ => BackgroundPc.noConfusion)
    · refine .installs a happlying ?_ rfl
      show (st.db.versions.finishApply disk a .ok).1.nowversion = a.v
      rw [VersionSet.finishApply, if_pos rfl]

/-! ## One level -/

/-- The version that a flush applies keeps the files of level 0. -/
def Staged (st : Session) : BackgroundPc → Prop
  | .applying a => a.v.Flat ∧ a.v.compactionScore = -1 ∧
    (st.db.versions.nowversion.files 0).Sublist (a.v.files 0)
  | _ => True

/-- All files are on level 0, and their number is no reason for a compaction. -/
structure Level0Only (st : Session) : Prop where
  flat : st.db.versions.nowversion.Flat
  score : st.db.versions.nowversion.compactionScore < 1
  background : st.Staged st.background

theorem level0Only_opened {C : Crc32c} {openIo : OpenIo} {dir : Dir} {db : Opened}
    (h : dir.open C limit openIo = some (.ok, some db)) : Level0Only (opened db) := by
  refine ⟨fun level hlevel => List.eq_nil_iff_forall_not_mem.mpr fun f hf => ?_, ?_, trivial⟩
  · exact hlevel ((Dir.has_open_iff h level f.num).mp ⟨f, hf, rfl⟩).1
  · show db.versions.nowversion.compactionScore < 1
    rw [Dir.compactionScore_open h]
    norm_num

theorem Level0Only.step (h : Level0Only st) (hstep : step limit action st = some st') :
    Level0Only st' ∧ (st.db.versions.nowversion.files 0).Sublist
      (st'.db.versions.nowversion.files 0) := by
  have hstaged := h.background
  cases versionStep_of_step hstep with
  | keeps hnow hpc =>
    refine ⟨⟨hnow ▸ h.flat, hnow ▸ h.score, ?_⟩, hnow ▸ List.Sublist.refl _⟩
    cases hpc' : st'.background with
    | applying a =>
      rw [← hpc.resolve_right fun hne => hne a hpc', hpc'] at hstaged
      exact ⟨hstaged.1, hstaged.2.1, hnow ▸ hstaged.2.2⟩
    | _ => trivial
  | stages f log a hpc hpc' hsave hnow =>
    have hflat : a.v.Flat :=
      Builder.flat_saveTo hsave h.flat fun level n hadds => ((adds_flushEdit level n).mp hadds).1
    have hfiles : st'.db.versions.nowversion.files = st.db.versions.nowversion.files := by
      rw [hnow]
      rfl
    refine ⟨⟨fun level hlevel => ?_, ?_, ?_⟩, hfiles ▸ List.Sublist.refl _⟩
    · rw [hfiles]
      exact h.flat level hlevel
    · rw [hnow, VersionSet.compactionScore_finalize hflat]
      norm_num
    · rw [hpc']
      refine ⟨hflat, Builder.compactionScore_saveTo hsave, ?_⟩
      rw [hfiles]
      exact Builder.sublist_saveTo hsave rfl 0
  | installs a hpc hnow hpc' =>
    rw [hpc] at hstaged
    obtain ⟨hflat, hscore, hsub⟩ := hstaged
    refine ⟨⟨hnow ▸ hflat, ?_, ?_⟩, hnow ▸ hsub⟩
    · rw [hnow, hscore]
      norm_num
    · rw [hpc']
      trivial

/-- In every state of a session, all files of the current version are on level 0 and
`NeedsCompaction` says no; from then on, no file leaves level 0. -/
theorem level0Only_of_steps {C : Crc32c} {openIo : OpenIo} {dir : Dir} {db : Opened}
    (hopen : dir.open C limit openIo = some (.ok, some db))
    (hrun : Steps (Session.step limit) (fun _ _ => True) (opened db) st) :
    (∀ level : Level, level ≠ 0 → st.db.versions.nowversion.files level = []) ∧
      st.db.versions.needsCompaction = false ∧
      ∀ st', Steps (Session.step limit) (fun _ _ => True) st st' →
        (st.db.versions.nowversion.files 0).Sublist (st'.db.versions.nowversion.files 0) := by
  have h : Level0Only st := hrun.invariant (fun _ _ _ _ hstep h => (h.step hstep).1)
    (level0Only_opened hopen)
  refine ⟨h.flat, decide_eq_false (not_le.mpr h.score), fun st' hrun' => ?_⟩
  exact hrun'.relation
    (R := fun s t => (s.db.versions.nowversion.files 0).Sublist (t.db.versions.nowversion.files 0))
    (fun s (_ : Level0Only s) => List.Sublist.refl _) (fun _ _ _ _ hstep h => (h.step hstep).1)
    (fun _ _ _ _ _ hstep h hsub => hsub.trans (h.step hstep).2) h

/-! ## Tables of this session -/

/-- The table with this number was built by `Open`, or in an earlier state of the run. -/
def Built (limit : Nat) (db : Opened) (st : Session) (n : Nat) : Prop :=
  (∃ t ∈ db.tables, t.file.num = n) ∨
    ∃ st₁, Steps (step limit) (fun _ _ => True) (opened db) st₁ ∧
      Steps (step limit) (fun _ _ => True) st₁ st ∧ st₁.background = .building n

theorem Built.step {db : Opened} {n : Nat} (h : Built limit db st n)
    (hstep : step limit action st = some st') : Built limit db st' n := by
  rcases h with htable | ⟨st₁, hbefore, hrun, hpc⟩
  · exact .inl htable
  · exact .inr ⟨st₁, hbefore, Relation.ReflTransGen.tail hrun ⟨action, trivial, hstep⟩, hpc⟩

/-- The files of the current version, and of the one that a flush applies, are built. -/
structure OnlyBuilt (limit : Nat) (db : Opened) (st : Session) : Prop where
  run : Steps (Session.step limit) (fun _ _ => True) (opened db) st
  current : ∀ level n, st.db.versions.nowversion.Has level n → Built limit db st n
  background : ∀ a, st.background = .applying a → ∀ level n, a.v.Has level n → Built limit db st n

theorem OnlyBuilt.step {db : Opened} (h : OnlyBuilt limit db st)
    (hstep : step limit action st = some st') : OnlyBuilt limit db st' := by
  have hrun' : Steps (Session.step limit) (fun _ _ => True) (opened db) st' :=
    Relation.ReflTransGen.tail h.run ⟨action, trivial, hstep⟩
  cases versionStep_of_step hstep with
  | keeps hnow hpc =>
    refine ⟨hrun', fun level n hhas => ?_, fun a hpc' level n hhas => ?_⟩
    · exact (h.current level n (hnow ▸ hhas)).step hstep
    · have hsame := hpc.resolve_right fun hne => hne a hpc'
      exact (h.background a (hsame ▸ hpc') level n hhas).step hstep
  | stages f log a hpc hpc' hsave hnow =>
    have hcurrent (level : Level) (n : Nat) (hhas : st.db.versions.nowversion.Has level n) :
        Built limit db st' n := (h.current level n hhas).step hstep
    refine ⟨hrun', fun level n hhas => ?_, fun a' ha' level n hhas => ?_⟩
    · exact hcurrent level n ((has_congr (congrArg Version.files hnow) level n).mp hhas)
    · rw [hpc'] at ha'
      cases ha'
      rcases (Builder.has_saveTo_apply hsave).mp hhas with hadds | ⟨hhas, -⟩
      · obtain ⟨-, rfl⟩ := (adds_flushEdit level n).mp hadds
        exact .inr ⟨st, h.run, .head trivial hstep (.refl _), hpc⟩
      · exact hcurrent level n hhas
  | installs a hpc hnow hpc' =>
    refine ⟨hrun', fun level n hhas => ?_, fun a' ha' => ?_⟩
    · exact (h.background a hpc level n (hnow ▸ hhas)).step hstep
    · rw [hpc'] at ha'
      cases ha'

/-- In every state of a session, whatever the directory and its manifest had, each file of the
current version is a table that `Open` has built from a log, or that a flush of this session has
built. -/
theorem built_of_has {C : Crc32c} {openIo : OpenIo} {dir : Dir} {db : Opened}
    (hopen : dir.open C limit openIo = some (.ok, some db))
    (hrun : Steps (Session.step limit) (fun _ _ => True) (opened db) st) (level : Level) (n : Nat)
    (h : st.db.versions.nowversion.Has level n) :
    (∃ t ∈ db.tables, t.file.num = n) ∨
      ∃ st₁, Steps (step limit) (fun _ _ => True) (opened db) st₁ ∧
        Steps (step limit) (fun _ _ => True) st₁ st ∧ st₁.background = .building n := by
  have hopened : OnlyBuilt limit db (opened db) :=
    { run := .refl _
      current := fun level n h => .inl ((Dir.has_open_iff hopen level n).mp h).2
      background := fun _ h => nomatch h }
  have hbuilt : OnlyBuilt limit db st :=
    hrun.invariant (fun _ _ _ _ hstep h => h.step hstep) hopened
  exact hbuilt.current level n h

/-! ## One flush -/

/-- What the bookkeeping of the written entries runs, the session runs. -/
theorem runAll_of_stepWritten {actions : List Action} {p q : Session × List Entry}
    (h : runAll (stepWritten limit) actions p = some q) :
    runAll (Session.step limit) actions p.1 = some q.1 := by
  induction actions generalizing p with
  | nil =>
    cases h
    rfl
  | cons action actions ih =>
    obtain ⟨p', hstep, h⟩ := Option.bind_eq_some_iff.mp h
    obtain ⟨st, hst, rfl⟩ := Option.map_eq_some_iff.mp hstep
    rw [runAll, hst]
    exact ih h

/-- Behind a `Put` and a flush there is one table. -/
theorem exists_flushed :
    ∃ db st, ({} : Dir).open .castagnoli 4096 {} = some (.ok, some db) ∧
      Steps (Session.step 4096) (fun _ _ => True) (opened db) st ∧
      (st.db.versions.nowversion.files 0).length = 1 := by
  obtain ⟨db, hopen⟩ := Dir.exists_open_new .castagnoli 4096
  have hnew := Dir.open_new rfl (fun _ => rfl) hopen
  have hflush : ∃ st, runAll (Session.step 4096)
      [.build, .built .ok 100 false {}, .applied {} []] (rotatedSession [118] db) = some st ∧
      (st.db.versions.nowversion.files 0).length = 1 := by
    clear hopen
    rcases db with ⟨⟨_, _, _, _, log, _, ⟨_, _, _⟩, _⟩, _, _, _, _, _⟩
    obtain ⟨rfl, rfl, rfl, rfl, rfl, rfl, rfl, -⟩ := hnew
    cases log with
    | none => exact ⟨_, rfl, rfl⟩
    | some name => exact ⟨_, rfl, rfl⟩
  obtain ⟨st, hflush, hlength⟩ := hflush
  have hrun : runAll (Session.step 4096) (putAndFlush [118]) (opened db) = some st := by
    rw [putAndFlush, runAll_append, runAll_of_stepWritten (runAll_put hnew ⟨by decide, by decide⟩),
      Option.bind_some, runAll_append,
      runAll_of_stepWritten (runAll_rotate hnew (by decide +kernel)), Option.bind_some, hflush]
  exact ⟨db, st, hopen, .of_runAll (by simp) hrun, hlength⟩

theorem level0Only_of_steps_flush :
    ∃ st : Session, (st.db.versions.nowversion.files 0).length = 1 ∧
      (∀ level : Level, level ≠ 0 → st.db.versions.nowversion.files level = []) ∧
      st.db.versions.needsCompaction = false ∧
      ∀ st', Steps (Session.step 4096) (fun _ _ => True) st st' →
        (st.db.versions.nowversion.files 0).Sublist (st'.db.versions.nowversion.files 0) := by
  obtain ⟨db, st, hopen, hrun, hlength⟩ := exists_flushed
  exact ⟨st, hlength, level0Only_of_steps hopen hrun⟩

theorem built_of_has_flush :
    ∃ db st n, st.db.versions.nowversion.Has 0 n ∧ ((∃ t ∈ db.tables, t.file.num = n) ∨
      ∃ st₁, Steps (step 4096) (fun _ _ => True) (opened db) st₁ ∧
        Steps (step 4096) (fun _ _ => True) st₁ st ∧ st₁.background = .building n) := by
  obtain ⟨db, st, hopen, hrun, hlength⟩ := exists_flushed
  obtain ⟨f, hf⟩ := List.length_eq_one_iff.mp hlength
  have hhas : st.db.versions.nowversion.Has 0 f.num := ⟨f, hf ▸ List.mem_singleton_self f, rfl⟩
  exact ⟨db, st, f.num, hhas, built_of_has hopen hrun 0 f.num hhas⟩

/-- Behind the flush, the writer that has rotated finds room. -/
theorem runAll_flushPut {v : Bytes} {db : Opened} (hnew : db.New) :
    ∃ st, runAll (Session.step 4096) [.build, .built .ok 100 false {}, .applied {} [],
        .room .ok [], .append .ok .ok, .insert] (rotatedSession v db) = some st ∧
      st.memLog = logEntries 4 (.numbered [⟨.value, [107], v⟩] 2) ∧ st.db.versions.logNumber = 4 ∧
      (st.db.versions.nowversion.files 0).length = 1 := by
  rcases db with ⟨⟨_, _, _, _, log, _, ⟨_, _, _⟩, _⟩, _, _, _, _, _⟩
  obtain ⟨rfl, rfl, rfl, rfl, rfl, rfl, rfl, -⟩ := hnew
  cases log with
  | none => exact ⟨_, rfl, rfl, rfl, rfl⟩
  | some name => exact ⟨_, rfl, rfl, rfl, rfl⟩

/-- The first `Put` is in a table, and the log of the second one is the oldest that is kept. -/
theorem logNumber_le_log_flush :
    ∃ db st, ({} : Dir).open .castagnoli 4096 {} = some (.ok, some db) ∧
      (st.db.versions.nowversion.files 0).length = 1 ∧
      st.memLog = [(4, ⟨[107], 2, .value, [118]⟩)] ∧ st.db.versions.logNumber = 4 ∧
      Steps (Session.step 4096) (fun _ _ => True) (opened db) st ∧
      st.db.mem = .ofEntries (st.memLog.map Prod.snd) ∧
      (∀ imm ∈ st.db.imm, imm = .ofEntries (st.immLog.map Prod.snd)) ∧
      ∀ p ∈ st.memLog ++ st.immLog, p ∈ st.received ∧ st.db.versions.logNumber ≤ p.1 := by
  obtain ⟨db, hopen⟩ := Dir.exists_open_new .castagnoli 4096
  have hnew := Dir.open_new rfl (fun _ => rfl) hopen
  obtain ⟨st, hflush, hmem, hlog, hfiles⟩ := runAll_flushPut (v := [118]) hnew
  have hrun : Steps (Session.step 4096) (fun _ _ => True) (opened db) st := by
    have hput := runAll_of_stepWritten (runAll_put (v := [118]) hnew ⟨by decide, by decide⟩)
    have hrotate := runAll_of_stepWritten (runAll_rotate (v := [118]) hnew (by decide +kernel))
    exact (Steps.of_runAll (fun _ _ _ => trivial) hput).trans
      ((Steps.of_runAll (fun _ _ _ => trivial) hrotate).trans
        (Steps.of_runAll (fun _ _ _ => trivial) hflush))
  have hentries : logEntries 4 (.numbered [⟨.value, [107], [118]⟩] 2) =
      [(4, ⟨[107], 2, .value, [118]⟩)] := by
    rw [logEntries, WriteBatch.entries_numbered_one (by decide) ⟨by decide, by decide⟩]
    rfl
  exact ⟨db, st, hopen, hfiles, hmem.trans hentries, hlog, hrun, logNumber_le_log hopen hrun⟩

end Session
end Yubindb
