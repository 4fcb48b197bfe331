import Yubindb.Db.VersionSet

/-!
# Recovering the version set from its manifest

A version set applies edits to a new database and a second one recovers from the files that the first
one leaves.
-/

namespace Yubindb

/-! ## Writing the manifest -/

/-- What a caller does up to one successful `LogAndApply`. -/
structure ApplyStep where
  /-- How often `NewFileNumber` is called. -/
  newFileNumbers : Nat
  /-- The argument of `SetLastSequence`. -/
  lastSequence : Nat
  edit : VersionEdit

/-- The values fit their types. -/
structure ApplyStep.Encodable (st : ApplyStep) : Prop where
  lastSequence : st.lastSequence < 2 ^ 64
  edit : st.edit.Encodable

def ApplyStep.prepare (st : ApplyStep) (vs : VersionSet) : VersionSet :=
  ((fun vs => vs.newFileNumber.2)^[st.newFileNumbers] vs).setLastSequence st.lastSequence

/-- `LogAndApply` with no failure of the file system. -/
def ApplyStep.run (st : ApplyStep) (w : VersionSet × Disk) : Option (VersionSet × Disk) :=
  ((st.prepare w.1).logAndApply w.2 st.edit {}).map Prod.snd

def applyAll : List ApplyStep → VersionSet × Disk → Option (VersionSet × Disk)
  | [], w => some w
  | st :: steps, w => (st.run w).bind (applyAll steps)

/-- The version set that `DBImpl::Recover` has on a database that it has just created. -/
def newDatabase : Option (VersionSet × Disk) :=
  (VersionSet.recover {} newDb).map fun (_, _, vs) => (vs, newDb)

namespace VersionEdit

theorem encodeTo_ne_nil {edit : VersionEdit} (h : edit.logNumber ≠ none) : edit.encodeTo ≠ [] := by
  obtain ⟨n, hn⟩ := Option.ne_none_iff_exists'.mp h
  simp [encodeTo, hn, encodeNumber, putVarint32_ne_nil]

end VersionEdit

namespace VersionSet

/-- What a `LogAndApply` without failures installs. -/
structure Installs (vs : VersionSet) (edit : VersionEdit) (vs' : VersionSet) : Prop where
  has : ∀ level n, vs'.nowversion.Has level n ↔
    edit.Adds level n ∨ vs.nowversion.Has level n ∧ ¬ edit.Deletes level n
  logNumber : (vs.completeEdit edit).logNumber = some vs'.logNumber
  lastSequence : vs'.lastSequence = vs.lastSequence
  nextFileNumber : vs'.nextFileNumber = vs.nextFileNumber
  compactPointer : edit.compactPointers = [] → vs'.compactPointer = vs.compactPointer

/-- The manifest that `CURRENT` names, which is the one that the version set writes. -/
structure Writes (vs : VersionSet) (disk : Disk) (name : FileName) (records : List Bytes) : Prop where
  descriptorLog : vs.descriptorLog = some name
  current : disk.current = some (name ++ ['\n'])
  manifest : disk.manifests name = some records

variable {vs vs' : VersionSet} {disk disk' : Disk} {edit : VersionEdit} {s : State}

theorem completeEdit_ne_nil (vs : VersionSet) (edit : VersionEdit) :
    (vs.completeEdit edit).encodeTo ≠ [] := by
  refine VersionEdit.encodeTo_ne_nil ?_
  cases hlog : edit.logNumber <;> simp [completeEdit, hlog]

theorem installs_of_saveTo {v : Version}
    (hv : (({ base := vs.nowversion } : Builder).apply (vs.completeEdit edit)).saveTo = some v)
    (hnow : vs'.nowversion = v)
    (hlog : vs'.logNumber = (vs.completeEdit edit).logNumber.getD vs.logNumber)
    (hseq : vs'.lastSequence = vs.lastSequence) (hnext : vs'.nextFileNumber = vs.nextFileNumber)
    (hptr : vs'.compactPointer = Builder.applyCompactPointers edit vs.compactPointer) :
    vs.Installs edit vs' where
  has level n := by
    rw [hnow]
    exact Builder.has_saveTo_apply hv
  logNumber := by
    rw [hlog]
    cases h : edit.logNumber <;> simp [completeEdit, h]
  lastSequence := hseq
  nextFileNumber := hnext
  compactPointer h := by
    rw [hptr, Builder.applyCompactPointers, h]
    rfl

/-- What is left of a `LogAndApply` behind its checks. -/
theorem logAndApply_stage {io : ManifestIo}
    (h : vs.logAndApply disk edit io = some (s, vs', disk')) :
    ∃ v, (({ base := vs.nowversion } : Builder).apply (vs.completeEdit edit)).saveTo = some v ∧
      let cp := Builder.applyCompactPointers (vs.completeEdit edit) vs.compactPointer
      let r := ({ vs with compactPointer := cp }.finalize v).openManifest disk io
      let a : Applying := ⟨vs.completeEdit edit, v, r.2.2.1, r.2.2.2⟩
      let t := r.1.writeManifest r.2.1 a io
      s = t.1 ∧ (vs', disk') = r.1.finishApply t.2 a t.1 := by
  obtain ⟨⟨vs₁, disk₁, a⟩, hbegin, h⟩ := Option.map_eq_some_iff.mp h
  rw [beginApply] at hbegin
  split at hbegin
  · obtain ⟨⟨vs₂, v₂⟩, hstage, hbegin⟩ := Option.map_eq_some_iff.mp hbegin
    obtain ⟨v, hv, hstage⟩ := Option.map_eq_some_iff.mp hstage
    rw [← hbegin, ← hstage] at h
    exact ⟨v, hv, (congrArg Prod.fst h).symm, (congrArg Prod.snd h).symm⟩
  · cases hbegin

theorem openManifest_fst (vs : VersionSet) (disk : Disk) (io : ManifestIo) :
    ∃ d, (vs.openManifest disk io).1 = { vs with descriptorLog := d } := by
  rw [openManifest]
  split
  · exact ⟨_, rfl⟩
  · dsimp only
    split
    · exact ⟨_, rfl⟩
    · split <;> exact ⟨_, rfl⟩

/-- A call that succeeds makes the version of its edit the current one. -/
theorem logAndApply_eq_ok {io : ManifestIo}
    (h : vs.logAndApply disk edit io = some (.ok, vs', disk')) : ∃ v d,
      (({ base := vs.nowversion } : Builder).apply (vs.completeEdit edit)).saveTo = some v ∧
      vs' = { { vs with
        compactPointer := Builder.applyCompactPointers edit vs.compactPointer }.finalize v with
          descriptorLog := d
          nowversion := v
          versionlist := v.files :: vs.versionlist
          logNumber := (vs.completeEdit edit).logNumber.getD vs.logNumber } := by
  obtain ⟨v, hv, hs, h⟩ := logAndApply_stage h
  obtain ⟨d, hd⟩ := openManifest_fst _ _ _
  rw [finishApply, if_pos hs.symm, hd] at h
  exact ⟨v, d, hv, congrArg Prod.fst h⟩

/-- One that fails keeps the current version. -/
theorem logAndApply_eq_failed {io : ManifestIo}
    (h : vs.logAndApply disk edit io = some (s, vs', disk')) (hne : s ≠ .ok) : ∃ v,
      (({ base := vs.nowversion } : Builder).apply (vs.completeEdit edit)).saveTo = some v ∧
      vs' = { { vs with
        compactPointer := Builder.applyCompactPointers edit vs.compactPointer }.finalize v with
          descriptorLog := none } := by
  obtain ⟨v, hv, hs, h⟩ := logAndApply_stage h
  obtain ⟨d, hd⟩ := openManifest_fst _ _ _
  rw [finishApply, if_neg (hs ▸ hne), hd] at h
  exact ⟨v, hv, congrArg Prod.fst h⟩

theorem logAndApply_installs {io : ManifestIo}
    (h : vs.logAndApply disk edit io = some (.ok, vs', disk')) : vs.Installs edit vs' := by
  obtain ⟨v, d, hv, rfl⟩ := logAndApply_eq_ok h
  exact installs_of_saveTo hv rfl rfl rfl rfl rfl

/-- No failure of the file system is no failure of `LogAndApply`. -/
theorem logAndApply_ok (h : vs.logAndApply disk edit {} = some (s, vs', disk')) : s = .ok := by
  obtain ⟨v, -, hs, -⟩ := logAndApply_stage h
  rw [hs]
  cases hlog : vs.descriptorLog <;> simp [openManifest, finalize, writeManifest]

/-- With the manifest open, `LogAndApply` adds the record of the edit. -/
theorem logAndApply_writes {name : FileName} {records : List Bytes}
    (h : vs.logAndApply disk edit {} = some (s, vs', disk')) (hw : vs.Writes disk name records) :
    vs'.Writes disk' name (records ++ [(vs.completeEdit edit).encodeTo]) := by
  obtain ⟨v, -, -, h⟩ := logAndApply_stage h
  simp only [finalize, openManifest, hw.descriptorLog] at h
  cases h
  refine ⟨rfl, hw.current, ?_⟩
  simp [writeManifest, Disk.appendRecord, hw.manifest, completeEdit_ne_nil]

/-- Without one, it makes `CURRENT` name a manifest with a snapshot and the record of the edit. -/
theorem logAndApply_create (h : vs.logAndApply disk edit {} = some (s, vs', disk'))
    (hnone : vs.descriptorLog = none) :
    ∃ snap, (edit.compactPointers = [] → vs.snapshot.encodeTo = [] → snap = []) ∧
      vs'.Writes disk' (descriptorFileName vs.manifestFileNumber)
        (snap ++ [(vs.completeEdit edit).encodeTo]) := by
  obtain ⟨v, -, -, h⟩ := logAndApply_stage h
  simp only [finalize, openManifest, hnone] at h
  cases h
  let cp := Builder.applyCompactPointers (vs.completeEdit edit) vs.compactPointer
  let record := { vs with compactPointer := cp }.snapshot.encodeTo
  refine ⟨if record = [] then [] else [record], ?_, rfl, rfl, ?_⟩
  · intro hptr hsnap
    have hcp : cp = vs.compactPointer := by
      simp only [cp, Builder.applyCompactPointers, completeEdit, hptr]
      rfl
    simp only [record, hcp]
    exact if_pos hsnap
  · simp [writeManifest, Disk.appendRecord, Disk.create, Disk.setCurrentFile, completeEdit_ne_nil]
    rfl

/-- The numbers fit `uint64_t`. -/
structure Bounded (vs : VersionSet) : Prop where
  nextFileNumber : vs.nextFileNumber < 2 ^ 64
  logNumber : vs.logNumber < 2 ^ 64

/-- The edit carries the numbers of the version set. -/
structure Carries (vs : VersionSet) (edit : VersionEdit) : Prop where
  logNumber : edit.logNumber = some vs.logNumber
  nextFileNumber : edit.nextFileNumber = some vs.nextFileNumber
  lastSequence : edit.lastSequence = some vs.lastSequence

theorem Installs.carries (h : vs.Installs edit vs') : vs'.Carries (vs.completeEdit edit) :=
  ⟨h.logNumber, congrArg some h.nextFileNumber.symm, congrArg some h.lastSequence.symm⟩

theorem Installs.bounded (h : vs.Installs edit vs') (hvs : vs.Bounded) (hedit : edit.Encodable) :
    vs'.Bounded := by
  refine ⟨h.nextFileNumber ▸ hvs.nextFileNumber, ?_⟩
  have hlog := h.logNumber
  rw [completeEdit] at hlog
  cases hn : edit.logNumber with
  | none =>
    rw [hn] at hlog
    exact Option.some.inj hlog ▸ hvs.logNumber
  | some n =>
    rw [hn] at hlog
    exact Option.some.inj hlog ▸ hedit.logNumber _ hn

theorem encodable_completeEdit (hvs : vs.Bounded) (hseq : vs.lastSequence < 2 ^ 64)
    (hedit : edit.Encodable) : (vs.completeEdit edit).Encodable where
  logNumber n hn := by
    cases hlog : edit.logNumber with
    | none =>
      rw [completeEdit, hlog] at hn
      exact Option.some.inj hn ▸ hvs.logNumber
    | some m =>
      rw [completeEdit, hlog] at hn
      exact Option.some.inj hn ▸ hedit.logNumber _ hlog
  nextFileNumber n hn := by
    cases hn
    exact hvs.nextFileNumber
  lastSequence n hn := by
    cases hn
    exact hseq
  deletedFiles := hedit.deletedFiles
  newFiles := hedit.newFiles

end VersionSet

/-! ## A run of edits -/

theorem ApplyStep.prepare_eq (st : ApplyStep) (vs : VersionSet) :
    ∃ m, (vs.nextFileNumber < 2 ^ 64 → m < 2 ^ 64) ∧
      st.prepare vs = { vs with nextFileNumber := m, lastSequence := st.lastSequence } := by
  rw [prepare]
  generalize st.newFileNumbers = k
  induction k generalizing vs with
  | zero => exact ⟨vs.nextFileNumber, id, rfl⟩
  | succ k ih =>
    obtain ⟨m, hm, heq⟩ := ih vs.newFileNumber.2
    exact ⟨m, fun _ => hm (Nat.mod_lt _ (by decide)), heq⟩

/-- Every file that an edit adds is deleted from its level by a later edit. -/
def DeletedLater : List VersionEdit → Prop
  | [] => True
  | edit :: later =>
    (∀ level n, edit.Adds level n → ∃ e ∈ later, e.Deletes level n) ∧ DeletedLater later

/-- An edit adds the file to the level and no later one deletes it. -/
def AddedForGood (level : Level) (n : Nat) : List VersionEdit → Prop
  | [] => False
  | edit :: later =>
    (edit.Adds level n ∧ ∀ e ∈ later, ¬ e.Deletes level n) ∨ AddedForGood level n later

theorem deletedLater_iff {edits : List VersionEdit} :
    DeletedLater edits ↔ ∀ level n, ¬ AddedForGood level n edits := by
  induction edits with
  | nil => simp [DeletedLater, AddedForGood]
  | cons edit later ih =>
    simp only [DeletedLater, AddedForGood, ih, not_or, not_and, not_forall, not_not, forall_and,
      exists_prop]

/-- Two edits with the same files and compaction pointers. -/
structure SameFiles (e₁ e₂ : VersionEdit) : Prop where
  compactPointers : e₁.compactPointers = e₂.compactPointers
  deletedFiles : e₁.deletedFiles = e₂.deletedFiles
  newFiles : e₁.newFiles = e₂.newFiles

theorem SameFiles.deletes {e₁ e₂ : VersionEdit} (h : SameFiles e₁ e₂) {level : Level} {n : Nat} :
    e₁.Deletes level n ↔ e₂.Deletes level n := by
  rw [VersionEdit.Deletes, h.deletedFiles, VersionEdit.Deletes]

theorem SameFiles.adds {e₁ e₂ : VersionEdit} (h : SameFiles e₁ e₂) {level : Level} {n : Nat} :
    e₁.Adds level n ↔ e₂.Adds level n := by
  rw [VersionEdit.Adds, h.newFiles, VersionEdit.Adds]

theorem exists_of_forall₂ {α β : Type} {R : α → β → Prop} {as : List α} {bs : List β}
    (h : List.Forall₂ R as bs) {a : α} (ha : a ∈ as) : ∃ b ∈ bs, R a b := by
  induction h with
  | nil => cases ha
  | @cons a' b as bs hab _ ih =>
    rcases List.mem_cons.mp ha with rfl | ha
    · exact ⟨b, List.mem_cons_self, hab⟩
    · obtain ⟨b', hb', hr⟩ := ih ha
      exact ⟨b', List.mem_cons_of_mem _ hb', hr⟩

theorem DeletedLater.of_sameFiles {edits es : List VersionEdit}
    (hsame : List.Forall₂ SameFiles edits es) (h : DeletedLater edits) : DeletedLater es := by
  induction hsame with
  | nil => trivial
  | @cons a b as bs hab htail ih =>
    refine ⟨fun level n hadd => ?_, ih h.2⟩
    obtain ⟨e, he, hdel⟩ := h.1 level n (hab.adds.mpr hadd)
    obtain ⟨e', he', hsame⟩ := exists_of_forall₂ htail he
    exact ⟨e', he', hsame.deletes.mp hdel⟩

namespace ApplyStep
variable {st : ApplyStep} {steps : List ApplyStep} {vs : VersionSet} {disk : Disk}
  {w w' : VersionSet × Disk}

theorem run_installs (h : st.run w = some w') : (st.prepare w.1).Installs st.edit w'.1 := by
  obtain ⟨⟨s, vs', disk'⟩, happly, heq⟩ := Option.map_eq_some_iff.mp h
  cases heq
  cases VersionSet.logAndApply_ok happly
  exact VersionSet.logAndApply_installs happly

theorem prepare_bounded (h : vs.Bounded) : (st.prepare vs).Bounded := by
  obtain ⟨m, hm, heq⟩ := st.prepare_eq vs
  rw [heq]
  exact ⟨hm h.nextFileNumber, h.logNumber⟩

section Prepare
variable (st : ApplyStep) (vs : VersionSet)

theorem prepare_nowversion : (st.prepare vs).nowversion = vs.nowversion := by
  obtain ⟨m, -, heq⟩ := st.prepare_eq vs
  rw [heq]

theorem prepare_descriptorLog : (st.prepare vs).descriptorLog = vs.descriptorLog := by
  obtain ⟨m, -, heq⟩ := st.prepare_eq vs
  rw [heq]

theorem prepare_manifestFileNumber :
    (st.prepare vs).manifestFileNumber = vs.manifestFileNumber := by
  obtain ⟨m, -, heq⟩ := st.prepare_eq vs
  rw [heq]

theorem prepare_compactPointer : (st.prepare vs).compactPointer = vs.compactPointer := by
  obtain ⟨m, -, heq⟩ := st.prepare_eq vs
  rw [heq]

theorem prepare_lastSequence : (st.prepare vs).lastSequence = st.lastSequence := by
  obtain ⟨m, -, heq⟩ := st.prepare_eq vs
  rw [heq]

end Prepare

/-- The edit that a step records. -/
def recorded (st : ApplyStep) (vs : VersionSet) : VersionEdit := (st.prepare vs).completeEdit st.edit

theorem sameFiles_recorded : SameFiles st.edit (st.recorded vs) := ⟨rfl, rfl, rfl⟩

theorem encodable_recorded (hst : st.Encodable) (hvs : vs.Bounded) :
    (st.recorded vs).Encodable := by
  refine VersionSet.encodable_completeEdit (prepare_bounded hvs) ?_ hst.edit
  rw [prepare_lastSequence]
  exact hst.lastSequence

theorem writes_prepare {name : FileName} {records : List Bytes} (h : vs.Writes disk name records) :
    (st.prepare vs).Writes disk name records :=
  ⟨(st.prepare_descriptorLog vs).trans h.descriptorLog, h.current, h.manifest⟩

theorem run_writes {name : FileName} {records : List Bytes} (h : st.run w = some w')
    (hw : w.1.Writes w.2 name records) :
    w'.1.Writes w'.2 name (records ++ [(st.recorded w.1).encodeTo]) := by
  obtain ⟨⟨s, vs', disk'⟩, happly, heq⟩ := Option.map_eq_some_iff.mp h
  cases heq
  exact VersionSet.logAndApply_writes happly (writes_prepare hw)

end ApplyStep

section Run
variable {steps : List ApplyStep} {w w' : VersionSet × Disk}

/-- The files of the version after a run: those added for good, and those that were there and are
not deleted. -/
theorem has_applyAll (h : applyAll steps w = some w') (level : Level) (n : Nat) :
    w'.1.nowversion.Has level n ↔
      AddedForGood level n (steps.map ApplyStep.edit) ∨
        w.1.nowversion.Has level n ∧ ∀ e ∈ steps.map ApplyStep.edit, ¬ e.Deletes level n := by
  induction steps generalizing w with
  | nil =>
    cases h
    simp [AddedForGood]
  | cons st steps ih =>
    obtain ⟨w₁, hrun, h⟩ := Option.bind_eq_some_iff.mp h
    have hinst := (ApplyStep.run_installs hrun).has level n
    rw [ApplyStep.prepare_nowversion] at hinst
    rw [ih h, hinst, List.map_cons, AddedForGood, List.forall_mem_cons]
    tauto

/-- The manifest after a run holds the records of all edits. -/
theorem applyAll_writes {name : FileName} {pre : List Bytes} {e₁ : VersionEdit}
    (h : applyAll steps w = some w') (hsteps : ∀ st ∈ steps, st.Encodable)
    (hw : w.1.Writes w.2 name (pre ++ [e₁.encodeTo])) (hbounded : w.1.Bounded)
    (hcarries : w.1.Carries e₁) :
    ∃ es, List.Forall₂ SameFiles (steps.map ApplyStep.edit) es ∧ (∀ e ∈ es, e.Encodable) ∧
      w'.1.Writes w'.2 name (pre ++ (e₁ :: es).map VersionEdit.encodeTo) ∧
      ∃ e ∈ (e₁ :: es).getLast?, w'.1.Carries e := by
  induction steps generalizing w pre e₁ with
  | nil =>
    cases h
    exact ⟨[], .nil, by simp, hw, e₁, rfl, hcarries⟩
  | cons st steps ih =>
    obtain ⟨w₁, hrun, h⟩ := Option.bind_eq_some_iff.mp h
    have hst := hsteps st List.mem_cons_self
    have hinst := ApplyStep.run_installs hrun
    obtain ⟨es, hsame, henc, hwrites, e, he, hlast⟩ := ih h
      (fun s hs => hsteps s (List.mem_cons_of_mem _ hs)) (ApplyStep.run_writes hrun hw)
      (hinst.bounded (ApplyStep.prepare_bounded hbounded) hst.edit) hinst.carries
    refine ⟨st.recorded w.1 :: es, .cons ApplyStep.sameFiles_recorded hsame, ?_, ?_, e, ?_, hlast⟩
    · exact List.forall_mem_cons.mpr ⟨ApplyStep.encodable_recorded hst hbounded, henc⟩
    · simpa using hwrites
    · rw [List.getLast?_cons_cons]
      exact he

end Run

/-! ## Reading the manifest -/

namespace VersionSet
open Builder

namespace Replay
variable {r : Replay} {e : VersionEdit} {es : List VersionEdit}

theorem records_append (r : Replay) (xs ys : List Bytes) :
    r.records (xs ++ ys) = (r.records xs).records ys := by
  have hstop (r : Replay) (h : r.s ≠ .ok) (xs : List Bytes) : r.records xs = r := by
    cases xs with
    | nil => rfl
    | cons x xs => exact if_neg h
  induction xs generalizing r with
  | nil => rfl
  | cons x xs ih =>
    rw [List.cons_append, records, records]
    split
    · exact ih _
    · next hs => exact (hstop r hs ys).symm

theorem record_encodeTo (henc : e.Encodable) (hptr : e.compactPointers = []) :
    r.record e.encodeTo = { r with
      s := .ok
      builder := r.builder.apply e
      logNumber := e.logNumber.or r.logNumber
      nextFile := e.nextFileNumber.or r.nextFile
      lastSequence := e.lastSequence.or r.lastSequence } := by
  have hcp : applyCompactPointers e r.compactPointer = r.compactPointer := by
    rw [applyCompactPointers, hptr]
    rfl
  simp [record, VersionEdit.decodeFrom_encodeTo henc hptr, hcp]

theorem records_encodeTo (hs : r.s = .ok)
    (hes : ∀ e ∈ es, e.Encodable ∧ e.compactPointers = []) :
    (r.records (es.map VersionEdit.encodeTo)).s = .ok ∧
      (r.records (es.map VersionEdit.encodeTo)).builder = es.foldl apply r.builder ∧
      (r.records (es.map VersionEdit.encodeTo)).compactPointer = r.compactPointer := by
  induction es generalizing r with
  | nil => exact ⟨hs, rfl, rfl⟩
  | cons e es ih =>
    obtain ⟨henc, hptr⟩ := hes e List.mem_cons_self
    rw [List.map_cons, records, if_pos hs, record_encodeTo henc hptr]
    exact ih rfl fun e he => hes e (List.mem_cons_of_mem _ he)

/-- The numbers are those of the last edit. -/
theorem records_carries {vs : VersionSet} (hs : r.s = .ok)
    (hes : ∀ e' ∈ es ++ [e], e'.Encodable ∧ e'.compactPointers = []) (hcarries : vs.Carries e) :
    (r.records ((es ++ [e]).map VersionEdit.encodeTo)).logNumber = some vs.logNumber ∧
      (r.records ((es ++ [e]).map VersionEdit.encodeTo)).nextFile = some vs.nextFileNumber ∧
      (r.records ((es ++ [e]).map VersionEdit.encodeTo)).lastSequence = some vs.lastSequence := by
  obtain ⟨henc, hptr⟩ := hes e (List.mem_append_right _ List.mem_cons_self)
  obtain ⟨hinit, -⟩ := records_encodeTo hs fun e' he' => hes e' (List.mem_append_left _ he')
  rw [List.map_append, records_append, List.map_singleton, records, if_pos hinit,
    record_encodeTo henc hptr, hcarries.logNumber, hcarries.nextFileNumber, hcarries.lastSequence]
  exact ⟨rfl, rfl, rfl⟩

theorem s_ne_ok {rs : List Bytes} {record : Bytes} (hmem : record ∈ rs)
    (hbad : (VersionEdit.decodeFrom record).1 ≠ .ok) : (r.records rs).s ≠ .ok := by
  obtain ⟨xs, ys, rfl⟩ := List.append_of_mem hmem
  rw [records_append]
  by_cases hs : (r.records xs).s = .ok
  · rw [records, if_pos hs]
    cases ys with
    | nil => exact hbad
    | cons y ys =>
      rw [records, if_neg]
      · exact hbad
      · exact hbad
  · rw [records, if_neg hs]
    exact hs

end Replay

/-- Every file in the builder is deleted, or a later edit deletes it. -/
theorem mem_deletedFiles_foldl {b : Builder} {es : List VersionEdit} (hlater : DeletedLater es)
    (hb : ∀ level, ∀ f ∈ (b.levels level).addedFiles,
      f.num ∈ (b.levels level).deletedFiles ∨ ∃ e ∈ es, e.Deletes level f.num) :
    ∀ level, ∀ f ∈ ((es.foldl apply b).levels level).addedFiles,
      f.num ∈ ((es.foldl apply b).levels level).deletedFiles := by
  induction es generalizing b with
  | nil =>
    intro level f hf
    simpa using hb level f hf
  | cons e es ih =>
    refine ih hlater.2 fun level f hf => ?_
    by_cases hadd : e.Adds level f.num
    · exact .inr (hlater.1 level f.num hadd)
    · obtain ⟨g, hg, hnum⟩ | hadd' := exists_mem_addedFiles_apply.mp ⟨f, hf, rfl⟩
      · rcases hb level g hg with hdel | ⟨e', he', hdel⟩
        · exact .inl (mem_deletedFiles_apply.mpr ⟨.inl (hnum ▸ hdel), hadd⟩)
        · rcases List.mem_cons.mp he' with rfl | he'
          · exact .inl (mem_deletedFiles_apply.mpr ⟨.inr (hnum ▸ hdel), hadd⟩)
          · exact .inr ⟨e', he', hnum ▸ hdel⟩
      · exact absurd hadd' hadd

theorem base_foldl_apply (b : Builder) (es : List VersionEdit) : (es.foldl apply b).base = b.base := by
  induction es generalizing b with
  | nil => rfl
  | cons e es ih => exact ih _

/-- Nothing is left of files that are all deleted, and so nothing overlaps. -/
theorem saveTo_foldl {es : List VersionEdit} (hlater : DeletedLater es) :
    (es.foldl apply { base := {} }).saveTo = some {} := by
  have hdeleted := mem_deletedFiles_foldl (b := { base := {} }) hlater
    fun _ f hf => absurd hf (SortedSet.not_mem_empty f)
  have hfiles (level : Level) : saveLevel
      ((es.foldl apply { base := {} }).levels level).deletedFiles
      ((es.foldl apply { base := {} }).base.files level)
      ((es.foldl apply { base := {} }).levels level).addedFiles.elems = [] := by
    refine List.eq_nil_iff_forall_not_mem.mpr fun f hf => ?_
    obtain ⟨hkeep, hbase | hset⟩ := mem_saveLevel.mp hf
    · rw [base_foldl_apply] at hbase
      cases hbase
    · exact hkeep (hdeleted level f hset)
  rw [saveTo, if_pos]
  · simp only [hfiles]
  · intro level _
    simp only [hfiles level]
    exact .nil

variable {vs vs' : VersionSet} {disk : Disk} {name : FileName} {records : List Bytes}

theorem recover_eq (hcurrent : disk.current = some (name ++ ['\n']))
    (hmanifest : disk.manifests name = some records) :
    vs.recover disk = finishRecover vs (vs.replay records) := by
  rw [recover, hcurrent]
  simp [hmanifest]

theorem finishRecover_files {s : State} {save : Bool} {r : Replay}
    (h : finishRecover vs r = some (s, save, vs')) :
    vs'.nowversion.files = vs.nowversion.files := by
  rw [finishRecover] at h
  split at h
  · split at h
    · obtain ⟨v, -, h⟩ := Option.map_eq_some_iff.mp h
      cases h
      rfl
    · cases h
      rfl
  · cases h
    rfl

/-- `Recover` never changes the files of `nowversion`. -/
theorem recover_files {s : State} {save : Bool} (h : vs.recover disk = some (s, save, vs')) :
    vs'.nowversion.files = vs.nowversion.files := by
  rw [recover] at h
  split at h
  · cases h
    rfl
  · split at h
    · cases h
      rfl
    · split at h
      · cases h
        rfl
      · exact finishRecover_files h

/-- A `Recover` that succeeds has read records with the three numbers, and installs them. -/
theorem recover_ok {save : Bool} (h : vs.recover disk = some (.ok, save, vs')) :
    save = true ∧ ∃ records v nextFile logNumber lastSequence,
      (vs.replay records).nextFile = some nextFile ∧
      (vs.replay records).logNumber = some logNumber ∧
      (vs.replay records).lastSequence = some lastSequence ∧
      vs' = ({ vs with compactPointer := (vs.replay records).compactPointer } :
        VersionSet).raiseNextFile.installRecovered v nextFile logNumber lastSequence := by
  rw [recover] at h
  split at h
  · cases h
  split at h
  · cases h
  split at h
  · cases h
  next records _ =>
  rw [finishRecover] at h
  split at h
  · split at h
    · next nextFile logNumber lastSequence hnext hlog hseq =>
      obtain ⟨v, -, h⟩ := Option.map_eq_some_iff.mp h
      cases h
      exact ⟨rfl, records, v, nextFile, logNumber, lastSequence, hnext, hlog, hseq, rfl⟩
    · cases h
  · next hs => exact absurd (congrArg Prod.fst (Option.some.inj h)) hs

/-- Records that all decode are recovered, with the version that one builder for them saves. -/
theorem recover_saveTo {w : VersionSet} {es : List VersionEdit} {e : VersionEdit} {v : Version}
    (hcurrent : disk.current = some (name ++ ['\n']))
    (hmanifest : disk.manifests name = some ((es ++ [e]).map VersionEdit.encodeTo))
    (hes : ∀ e' ∈ es ++ [e], e'.Encodable ∧ e'.compactPointers = [])
    (hsave : ((es ++ [e]).foldl apply { base := {} }).saveTo = some v) (hcarries : w.Carries e) :
    recover {} disk = some (.ok, true, ({} : VersionSet).raiseNextFile.installRecovered v
      w.nextFileNumber w.logNumber w.lastSequence) := by
  let r₀ : Replay := { builder := { base := {} }, compactPointer := fun _ => [] }
  have hs₀ : r₀.s = .ok := rfl
  obtain ⟨hs, hbuilder, hptr⟩ := Replay.records_encodeTo hs₀ hes
  obtain ⟨hlog, hnext, hseq⟩ := Replay.records_carries hs₀ hes hcarries
  rw [← show r₀.builder = { base := {} } from rfl, ← hbuilder] at hsave
  rw [recover_eq hcurrent hmanifest, show replay {} _ = r₀.records _ from rfl, finishRecover]
  dsimp only
  rw [if_pos hs, hlog, hnext, hseq]
  dsimp only
  rw [hsave, hptr]
  rfl

/-- Nothing is recovered if nothing is left of the files that the records add. -/
theorem recover_encodeTo {w : VersionSet} {es : List VersionEdit} {e : VersionEdit}
    (hcurrent : disk.current = some (name ++ ['\n']))
    (hmanifest : disk.manifests name = some ((es ++ [e]).map VersionEdit.encodeTo))
    (hes : ∀ e' ∈ es ++ [e], e'.Encodable ∧ e'.compactPointers = [])
    (hlater : DeletedLater (es ++ [e])) (hcarries : w.Carries e) :
    recover {} disk = some (.ok, true, ({} : VersionSet).raiseNextFile.installRecovered {}
      w.nextFileNumber w.logNumber w.lastSequence) :=
  recover_saveTo hcurrent hmanifest hes (saveTo_foldl hlater) hcarries

/-- A record that does not decode makes `Recover` fail. -/
theorem recover_ne_ok {record : Bytes} {save : Bool}
    (hcurrent : disk.current = some (name ++ ['\n'])) (hmanifest : disk.manifests name = some records)
    (hmem : record ∈ records) (hbad : (VersionEdit.decodeFrom record).1 ≠ .ok) :
    vs.recover disk ≠ some (.ok, save, vs') := by
  intro h
  have hs : (vs.replay records).s ≠ .ok := Replay.s_ne_ok hmem hbad
  rw [recover_eq hcurrent hmanifest, finishRecover, if_neg hs] at h
  exact hs (Prod.mk.inj (Option.some.inj h)).1

end VersionSet

/-! ## Recovery agrees with the writer -/

/-- The edit names the file number. -/
def VersionEdit.Names (edit : VersionEdit) (n : Nat) : Prop :=
  (∃ level, edit.Adds level n) ∨ (∃ level, edit.Deletes level n) ∨ edit.logNumber = some n

/-- What a version set recovers, against the writer that has applied the edits. -/
structure Agrees (edits : List VersionEdit) (w r : VersionSet) : Prop where
  files : r.nowversion.files = w.nowversion.files
  logNumber : r.logNumber = w.logNumber
  lastSequence : r.lastSequence = w.lastSequence
  nextFileNumber : ∀ edit ∈ edits, ∀ n, edit.Names n → n < r.nextFileNumber

/-- The version set of a new database. -/
def newVersionSet : VersionSet := ({} : VersionSet).raiseNextFile.installRecovered {} 2 0 0

theorem Disk.recover_newDb (disk : Disk) :
    VersionSet.recover {} disk.newDb = some (.ok, true, newVersionSet) := by
  have hman : disk.newDb.manifests (descriptorFileName 1) =
      some (([] ++ [newDbEdit]).map VersionEdit.encodeTo) := by
    have hne : newDbEdit.encodeTo ≠ [] := VersionEdit.encodeTo_ne_nil (by decide)
    simp [Disk.newDb, Disk.create, Disk.appendRecord, Disk.setCurrentFile, hne]
  have henc : newDbEdit.Encodable := by
    constructor <;> simp [newDbEdit, VersionEdit.setLogNumber, VersionEdit.setNextFile,
      VersionEdit.setLastSequence]
  have hadds (level : Level) (n : Nat) : ¬ newDbEdit.Adds level n := by
    rintro ⟨f, hf, -⟩
    cases hf
  refine VersionSet.recover_encodeTo (w := {}) rfl hman ?_
    ⟨fun level n h => absurd h (hadds level n), trivial⟩ ⟨rfl, rfl, rfl⟩
  intro e he
  rw [List.mem_singleton.mp he]
  exact ⟨henc, rfl⟩

theorem recover_newDb : VersionSet.recover {} newDb = some (.ok, true, newVersionSet) :=
  Disk.recover_newDb {}

theorem newDatabase_eq : newDatabase = some (newVersionSet, newDb) := by
  rw [newDatabase, recover_newDb]
  rfl

theorem snapshot_newVersionSet : newVersionSet.snapshot.encodeTo = [] := by
  rfl

section Recovery
variable {steps : List ApplyStep} {w : VersionSet} {disk : Disk}

/-- The manifest of a run that applies an edit: a snapshot of the empty version set, which has no
bytes unless the first edit sets a compaction pointer, and the records of the edits. -/
theorem manifest_applyAll (hne : steps ≠ []) (hsteps : ∀ st ∈ steps, st.Encodable)
    (hrun : applyAll steps (newVersionSet, newDb) = some (w, disk)) :
    ∃ name snap es, w.Writes disk name (snap ++ es.map VersionEdit.encodeTo) ∧
      List.Forall₂ SameFiles (steps.map ApplyStep.edit) es ∧ (∀ e ∈ es, e.Encodable) ∧
      (∃ e ∈ es.getLast?, w.Carries e) ∧
      ((∀ edit ∈ steps.map ApplyStep.edit, edit.compactPointers = []) → snap = []) := by
  cases steps with
  | nil => exact absurd rfl hne
  | cons st steps =>
    obtain ⟨w₁, hfirst, hrest⟩ := Option.bind_eq_some_iff.mp hrun
    have hst := hsteps st List.mem_cons_self
    have hbounded : newVersionSet.Bounded := ⟨by decide, by decide⟩
    have hinst := ApplyStep.run_installs hfirst
    obtain ⟨⟨s, vs', disk'⟩, happly, heq⟩ := Option.map_eq_some_iff.mp hfirst
    subst heq
    obtain ⟨m, -, hprep⟩ := st.prepare_eq newVersionSet
    obtain ⟨snap, hsnap, hwrites⟩ := VersionSet.logAndApply_create happly (by rw [hprep]; rfl)
    obtain ⟨es, hsame, henc, hall, e, he, hcarries⟩ := applyAll_writes hrest
      (fun s hs => hsteps s (List.mem_cons_of_mem _ hs)) hwrites
      (hinst.bounded (ApplyStep.prepare_bounded hbounded) hst.edit) hinst.carries
    refine ⟨_, snap, st.recorded newVersionSet :: es, hall,
      .cons ApplyStep.sameFiles_recorded hsame, ?_, ⟨e, he, hcarries⟩, fun hptr => ?_⟩
    · exact List.forall_mem_cons.mpr ⟨ApplyStep.encodable_recorded hst hbounded, henc⟩
    · refine hsnap (hptr _ List.mem_cons_self) ?_
      rw [hprep]
      exact snapshot_newVersionSet

/-- The files of the writer's version after a run from the new database. -/
theorem files_applyAll (hrun : applyAll steps (newVersionSet, newDb) = some (w, disk)) :
    (w.nowversion.files = fun _ => []) ↔ DeletedLater (steps.map ApplyStep.edit) := by
  have hhas (level : Level) (n : Nat) :
      w.nowversion.Has level n ↔ AddedForGood level n (steps.map ApplyStep.edit) := by
    rw [has_applyAll hrun level n, or_iff_left]
    rintro ⟨⟨f, hf, -⟩, -⟩
    cases hf
  rw [deletedLater_iff]
  constructor
  · intro hfiles level n hadd
    obtain ⟨f, hf, -⟩ := (hhas level n).mpr hadd
    rw [hfiles] at hf
    cases hf
  · intro hnone
    refine funext fun level => List.eq_nil_iff_forall_not_mem.mpr fun f hf => ?_
    exact hnone level f.num ((hhas level f.num).mp ⟨f, hf, rfl⟩)

/-- A run whose edits carry no compaction pointer and delete every file that they add is recovered. -/
theorem recover_applyAll (hsteps : ∀ st ∈ steps, st.Encodable)
    (hrun : applyAll steps (newVersionSet, newDb) = some (w, disk))
    (hptr : ∀ edit ∈ steps.map ApplyStep.edit, edit.compactPointers = [])
    (hlater : DeletedLater (steps.map ApplyStep.edit)) :
    ∃ next, (steps ≠ [] → next = w.nextFileNumber) ∧
      VersionSet.recover {} disk = some (.ok, true, ({} : VersionSet).raiseNextFile.installRecovered {}
        next w.logNumber w.lastSequence) := by
  rcases eq_or_ne steps [] with rfl | hne
  · cases hrun
    exact ⟨2, fun h => absurd rfl h, recover_newDb⟩
  · obtain ⟨name, snap, es, hwrites, hsame, henc, ⟨e, he, hcarries⟩, hsnap⟩ :=
      manifest_applyAll hne hsteps hrun
    obtain ⟨es, rfl⟩ := List.getLast?_eq_some_iff.mp he
    have hes : ∀ e' ∈ es ++ [e], e'.Encodable ∧ e'.compactPointers = [] := by
      intro e' he'
      obtain ⟨edit, hedit, h⟩ := exists_of_forall₂ hsame.flip he'
      exact ⟨henc e' he', h.compactPointers ▸ hptr edit hedit⟩
    rw [hsnap hptr] at hwrites
    exact ⟨_, fun _ => rfl, VersionSet.recover_encodeTo hwrites.current hwrites.manifest hes
      (hlater.of_sameFiles hsame) hcarries⟩

/-- A compaction pointer makes the recovery of a run fail. -/
theorem compactPointers_of_recover {save : Bool} {r : VersionSet}
    (hsteps : ∀ st ∈ steps, st.Encodable)
    (hrun : applyAll steps (newVersionSet, newDb) = some (w, disk))
    (hrecover : VersionSet.recover {} disk = some (.ok, save, r)) :
    ∀ edit ∈ steps.map ApplyStep.edit, edit.compactPointers = [] := by
  intro edit hedit
  have hne : steps ≠ [] := by
    rintro rfl
    cases hedit
  obtain ⟨name, snap, es, hwrites, hsame, henc, -, -⟩ := manifest_applyAll hne hsteps hrun
  obtain ⟨e, he, h⟩ := exists_of_forall₂ hsame hedit
  by_contra hptr
  have hbad := VersionEdit.decodeFrom_of_compactPointers (henc e he).logNumber
    (henc e he).nextFileNumber (henc e he).lastSequence (h.compactPointers ▸ hptr)
  refine VersionSet.recover_ne_ok hwrites.current hwrites.manifest
    (List.mem_append_right _ (List.mem_map_of_mem he)) ?_ hrecover
  rw [hbad]
  decide

end Recovery

/-- Recovery agrees with the writer for exactly the runs whose edits carry no compaction pointer and
delete every file that they add, and name no file number that recovery gives out again. -/
theorem recover_agrees_iff {steps : List ApplyStep} {w : VersionSet} {disk : Disk}
    (hsteps : ∀ st ∈ steps, st.Encodable)
    (hrun : newDatabase.bind (applyAll steps) = some (w, disk)) :
    (∃ r, VersionSet.recover {} disk = some (.ok, true, r) ∧
        Agrees (steps.map ApplyStep.edit) w r) ↔
      (∀ edit ∈ steps.map ApplyStep.edit, edit.compactPointers = []) ∧
        DeletedLater (steps.map ApplyStep.edit) ∧
        ∀ edit ∈ steps.map ApplyStep.edit, ∀ n, edit.Names n → n < (w.nextFileNumber + 1) % 2 ^ 64 := by
  rw [newDatabase_eq] at hrun
  have hnext {next : Nat} (h : steps ≠ [] → next = w.nextFileNumber) {edit : VersionEdit}
      (hedit : edit ∈ steps.map ApplyStep.edit) : next = w.nextFileNumber := by
    refine h ?_
    rintro rfl
    cases hedit
  constructor
  · rintro ⟨r, hrecover, hagrees⟩
    have hptr := compactPointers_of_recover hsteps hrun hrecover
    have hlater := (files_applyAll hrun).mp
      (hagrees.files.symm.trans (VersionSet.recover_files hrecover))
    obtain ⟨next, hnum, hrecover'⟩ := recover_applyAll hsteps hrun hptr hlater
    rw [hrecover] at hrecover'
    cases hrecover'
    exact ⟨hptr, hlater, fun edit hedit n hn =>
      hnext hnum hedit ▸ hagrees.nextFileNumber edit hedit n hn⟩
  · rintro ⟨hptr, hlater, hnames⟩
    obtain ⟨next, hnum, hrecover⟩ := recover_applyAll hsteps hrun hptr hlater
    refine ⟨_, hrecover, ?_, rfl, rfl, fun edit hedit n hn => ?_⟩
    · rw [VersionSet.recover_files hrecover, (files_applyAll hrun).mpr hlater]
    · rw [hnext hnum hedit]
      exact hnames edit hedit n hn

/-! A table file is added, and then deleted again. -/

def addTable : ApplyStep :=
  ⟨1, 1, ({} : VersionEdit).addFile 0 ⟨3, 100, .new [107] 1 .value, .new [107] 1 .value⟩⟩

def deleteTable : ApplyStep := ⟨0, 1, ({} : VersionEdit).deleteFile 0 3⟩

theorem adds_addTable {level : Level} {n : Nat} :
    addTable.edit.Adds level n ↔ level = 0 ∧ n = 3 := by
  simp [VersionEdit.Adds, addTable, VersionEdit.addFile, eq_comm]

theorem not_adds_deleteTable {level : Level} {n : Nat} : ¬ deleteTable.edit.Adds level n := by
  simp [VersionEdit.Adds, deleteTable, VersionEdit.deleteFile]

theorem deletes_deleteTable {level : Level} {n : Nat} :
    deleteTable.edit.Deletes level n ↔ level = 0 ∧ n = 3 := by
  have hmem : deleteTable.edit.Deletes level n ↔ ((0 : Level), 3) = (level, n) := by
    simp [VersionEdit.Deletes, deleteTable, VersionEdit.deleteFile]
  rw [hmem, Prod.mk.injEq, eq_comm, @eq_comm _ 3]

theorem not_deletes_addTable {level : Level} {n : Nat} : ¬ addTable.edit.Deletes level n :=
  Std.ExtTreeSet.not_mem_empty

theorem encodable_addTable : addTable.Encodable := by
  refine ⟨by decide, ⟨?_, ?_, ?_, fun d hd => absurd hd not_deletes_addTable, ?_⟩⟩
  case refine_4 =>
    intro p hp
    rw [List.mem_singleton.mp hp]
    exact ⟨by decide, by decide, by decide, by decide⟩
  all_goals
    intro n hn
    cases hn

theorem encodable_deleteTable : deleteTable.Encodable := by
  refine ⟨by decide, ⟨?_, ?_, ?_, fun d hd => ?_, ?_⟩⟩
  case refine_4 =>
    rw [(deletes_deleteTable.mp hd).2]
    decide
  all_goals
    intro n hn
    cases hn

theorem recover_agrees_addDelete :
    ∃ w disk, newDatabase.bind (applyAll [addTable, deleteTable]) = some (w, disk) ∧
      ∃ r, VersionSet.recover {} disk = some (.ok, true, r) ∧
        Agrees [addTable.edit, deleteTable.edit] w r := by
  have hnext : (applyAll [addTable, deleteTable] (newVersionSet, newDb)).map
      (·.1.nextFileNumber) = some 4 := by rfl
  obtain ⟨⟨w, disk⟩, hrun, hw⟩ := Option.map_eq_some_iff.mp hnext
  have hdb : newDatabase.bind (applyAll [addTable, deleteTable]) = some (w, disk) := by
    rw [newDatabase_eq]
    exact hrun
  refine ⟨w, disk, hdb, (recover_agrees_iff ?_ hdb).mpr ⟨?_, ?_, ?_⟩⟩
  · exact List.forall_mem_cons.mpr ⟨encodable_addTable, List.forall_mem_singleton.mpr
      encodable_deleteTable⟩
  · exact List.forall_mem_cons.mpr ⟨rfl, List.forall_mem_singleton.mpr rfl⟩
  · refine ⟨fun level n hadd => ⟨_, List.mem_cons_self, ?_⟩, fun level n hadd => ?_, trivial⟩
    · exact deletes_deleteTable.mpr (adds_addTable.mp hadd)
    · exact absurd hadd not_adds_deleteTable
  · have hnum : ∀ edit ∈ [addTable.edit, deleteTable.edit], ∀ n, edit.Names n → n = 3 := by
      refine List.forall_mem_cons.mpr ⟨?_, List.forall_mem_singleton.mpr ?_⟩
      · rintro n (⟨level, h⟩ | ⟨level, h⟩ | h)
        · exact (adds_addTable.mp h).2
        · exact absurd h not_deletes_addTable
        · cases h
      · rintro n (⟨level, h⟩ | ⟨level, h⟩ | h)
        · exact absurd h not_adds_deleteTable
        · exact (deletes_deleteTable.mp h).2
        · cases h
    intro edit hedit n hn
    rw [hnum edit hedit n hn, hw]
    decide

/-- A table that is not deleted again is lost. -/
theorem not_recover_agrees_add :
    ∃ w disk, newDatabase.bind (applyAll [addTable]) = some (w, disk) ∧
      ¬ ∃ r, VersionSet.recover {} disk = some (.ok, true, r) ∧ Agrees [addTable.edit] w r := by
  have hsome : (applyAll [addTable] (newVersionSet, newDb)).isSome := by rfl
  obtain ⟨⟨w, disk⟩, hrun⟩ := Option.isSome_iff_exists.mp hsome
  refine ⟨w, disk, by rw [newDatabase_eq]; exact hrun, ?_⟩
  rintro ⟨r, hrecover, hagrees⟩
  have hlater := (files_applyAll hrun).mp
    (hagrees.files.symm.trans (VersionSet.recover_files hrecover))
  obtain ⟨e, he, -⟩ := hlater.1 0 3 (adds_addTable.mpr ⟨rfl, rfl⟩)
  cases he

end Yubindb
