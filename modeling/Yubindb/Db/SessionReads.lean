import Yubindb.Db.BatchInsert
import Yubindb.Db.SessionLogs
import Yubindb.Db.VersionLookup

/-!
# Reads in a session

`DBImpl::Get` in `src/db/db.cpp` looks into `mem_`, into `imm_` and into the tables of the current
version, and stops at the first that has an answer. One client writes, and flushes come in between.
-/

namespace Yubindb

/-- The entries of a table, by its pairs. -/
def tableEntries (pairs : List (InternalKey × Bytes)) : List Entry :=
  pairs.filterMap fun (key, value) =>
    (parseInternalKey key.Key).map fun p => ⟨p.userKey, p.sequence, p.type, value⟩

theorem tableEntries_map {es : List Entry} (h : ∀ e ∈ es, e.sequence < 2 ^ 56) :
    tableEntries (es.map fun e => (e.internalKey, e.value)) = es := by
  rw [tableEntries, List.filterMap_map]
  refine (List.filterMap_congr (g := some) fun e he => ?_).trans List.filterMap_some
  simp only [Function.comp_apply, parseInternalKey_internalKey (h e he)]
  rfl

/-- A flush of values that the skiplist leaves as they are. -/
theorem mem_tableEntries_flush {es : List Entry} (hfits : ∀ e ∈ es, e.Fits ∧ e.sequence < 2 ^ 56)
    (hvalue : ∀ e ∈ es, storedVal e.value = e.value) (e : Entry) :
    e ∈ tableEntries (Memtable.ofEntries es).flushlevel0fromskip ↔ e ∈ es := by
  have hpairs : (Memtable.ofEntries es).flushlevel0fromskip.Perm
      (es.map fun e => (e.internalKey, e.value)) := by
    rw [Memtable.flushlevel0fromskip, Memtable.ordered]
    refine ((List.mergeSort_perm _ _).map _).trans (.of_eq ?_)
    rw [Memtable.nodes_ofEntries fun e he => (hfits e he).1, List.map_map]
    refine List.map_congr_left fun e he => ?_
    show (e.internalKey, storedVal e.value) = _
    rw [hvalue e he]
  rw [tableEntries, (hpairs.filterMap _).mem_iff]
  rw [← tableEntries, tableEntries_map fun e he => (hfits e he).2]

namespace Session

/-! ## Looking up a key -/

/-- The entries in the tables of the current version. -/
def contents (st : Session) : List Entry :=
  (List.finRange kNumLevels).flatMap fun level =>
    (st.db.versions.nowversion.files level).flatMap fun f =>
      ((st.tables f.num).map tableEntries).getD []

/-- `Memtable::Get` on `mem_` and `imm_` and `Version::Get`, as lookups of the newest entry in what
they look into. -/
structure Lookups (st : Session) where
  mem : Bytes → Nat → Option Entry
  imm : Bytes → Nat → Option Entry
  version : Bytes → Nat → Option Entry
  isNewest_mem : ∀ k s, IsNewest Entry.userKey Entry.sequence
    {e | e ∈ st.memLog.map Prod.snd} k s (mem k s)
  isNewest_imm : ∀ k s, IsNewest Entry.userKey Entry.sequence
    {e | e ∈ st.immLog.map Prod.snd} k s (imm k s)
  isNewest_version : ∀ k s, IsNewest Entry.userKey Entry.sequence
    {e | e ∈ st.contents} k s (version k s)

/-- Lookups that search the lists. -/
def lookups (st : Session) : st.Lookups where
  mem := newest Entry.userKey Entry.sequence (st.memLog.map Prod.snd)
  imm := newest Entry.userKey Entry.sequence (st.immLog.map Prod.snd)
  version := newest Entry.userKey Entry.sequence st.contents
  isNewest_mem := isNewest_newest _
  isNewest_imm := isNewest_newest _
  isNewest_version := isNewest_newest _

/-- `DBImpl::Get`: the state that it returns, and what `*value` holds then. -/
def get (st : Session) (look : st.Lookups) (key : Bytes) (snapshot : Option Nat) : State × Bytes :=
  let snapshot := snapshot.getD st.db.versions.lastSequence
  match look.mem key snapshot with
  | some e => answer [] (some e)
  | none =>
    match st.db.imm, look.imm key snapshot with
    | some _, some e => answer [] (some e)
    | _, _ => answer [] (look.version key snapshot)

/-! ## What has been written -/

/-- The entries that a step inserts into `mem_`. -/
def inserts (st : Session) : Action → List Entry
  | .insert =>
    match st.writer with
    | .logged .ok _ updates _ => updates.entries
    | _ => []
  | _ => []

/-- A step, with the entries that have been written so far. -/
def stepWritten (writeBufferSize : Nat) (action : Action) (p : Session × List Entry) :
    Option (Session × List Entry) :=
  (step writeBufferSize action p.1).map fun st => (st, p.2 ++ p.1.inserts action)

/-- Every batch is that of one `Put` or `Delete`, and no writer waits behind another one. -/
def OneClient : Action → Prop
  | .call fnt => ∃ op, fnt.batch = .ofOps [op]
  | .room _ followers => followers = []
  | _ => True

/-- What reads need of a step: the strings of an operation have lengths that fit, sequence numbers
have 56 bits, and a flush that succeeds finds values that the skiplist has left as they were and
deletes none of the tables of its version. -/
def KeepsReads (st : Session) : Action → Prop
  | .call fnt => ∃ op, fnt.batch = .ofOps [op] ∧ (op.entryAt 0).Fits
  | .room _ _ => st.db.versions.lastSequence + 1 < 2 ^ 56
  | .applied io filenames => ∀ a, st.background = .applying a →
    (st.db.versions.writeManifest st.disk a io).1 = .ok →
      (∀ p ∈ st.immLog, storedVal p.2.value = p.2.value) ∧
        ∀ level n, a.v.Has level n → tableFileName n ∈ filenames →
          (st.db.versions.finishApply st.disk a .ok).1.Live (readNumber n)
  | _ => True

/-! ## The invariant -/

/-- The last sequence number that a written entry can have. -/
def lastWritten (st : Session) : Nat :=
  match st.writer with
  | .inserted lastSequence => lastSequence
  | _ => st.db.versions.lastSequence

/-- The entry that is being written is the next one. -/
def Pending (st : Session) : WriterPc → Prop
  | .room fnt => ∃ op, fnt.batch = .ofOps [op] ∧ (op.entryAt 0).Fits
  | .ready _ updates lastSequence | .logged _ _ updates lastSequence =>
    lastSequence = st.db.versions.lastSequence + 1 ∧ lastSequence < 2 ^ 56 ∧
      ∃ e, updates.entries = [e] ∧ e.Fits ∧ e.sequence = lastSequence
  | .inserted lastSequence => lastSequence = st.db.versions.lastSequence + 1
  | _ => True

/-- A number for a table that the current version does not have. -/
def NewTable (st : Session) (num : Nat) : Prop :=
  (∀ level, ¬ st.db.versions.nowversion.Has level num) ∧
    (st.db.versions.nextFileNumber ≠ 0 → num < st.db.versions.nextFileNumber)

/-- A flush adds the table of `imm_` to the tables of the current version. -/
def Flushing (st : Session) : BackgroundPc → Prop
  | .idle => True
  | .building num => st.NewTable num
  | .applying a => ∃ num, st.NewTable num ∧
    st.tables num = some (Memtable.ofEntries (st.immLog.map Prod.snd)).flushlevel0fromskip ∧
    ∀ level n, a.v.Has level n ↔ level = 0 ∧ n = num ∨ st.db.versions.nowversion.Has level n

/-- What has been written is in `mem_`, in `imm_` and in the tables, the newest in front. -/
structure Layered (st : Session) (written : List Entry) : Prop where
  fits : ∀ e ∈ written, e.Fits
  le : ∀ e ∈ written, e.sequence ≤ st.lastWritten
  lt : st.lastWritten < 2 ^ 56
  distinct : ∀ a ∈ written, ∀ b ∈ written, a.sequence = b.sequence → a = b
  mem_iff : ∀ e, e ∈ written ↔
    e ∈ st.memLog.map Prod.snd ∨ e ∈ st.immLog.map Prod.snd ∨ e ∈ st.contents
  mem_newer : ∀ a ∈ st.memLog.map Prod.snd, ∀ b,
    b ∈ st.immLog.map Prod.snd ∨ b ∈ st.contents → b.sequence < a.sequence
  imm_newer : ∀ a ∈ st.immLog.map Prod.snd, ∀ b ∈ st.contents, b.sequence < a.sequence
  numbers : st.db.versions.nextFileNumber ≠ 0 → ∀ level n,
    st.db.versions.nowversion.Has level n → n < st.db.versions.nextFileNumber
  writer : st.Pending st.writer
  background : st.Flushing st.background

variable {limit : Nat} {create appended synced result : State} {followers : List Writer}
  {fileSize : ℕ+} {shuttingDown : Bool} {io : ManifestIo} {filenames : List FileName}
  {st st' : Session} {w w' : List Entry} {e : Entry}

theorem mem_contents : e ∈ st.contents ↔ ∃ level n, st.db.versions.nowversion.Has level n ∧
    ∃ pairs, st.tables n = some pairs ∧ e ∈ tableEntries pairs := by
  simp only [contents, List.mem_flatMap, List.mem_finRange, true_and]
  constructor
  · rintro ⟨level, f, hf, he⟩
    cases htable : st.tables f.num with
    | none =>
      rw [htable] at he
      cases he
    | some pairs =>
      rw [htable] at he
      exact ⟨level, f.num, ⟨f, hf, rfl⟩, pairs, htable, he⟩
  · rintro ⟨level, n, ⟨f, hf, rfl⟩, pairs, htable, he⟩
    exact ⟨level, f, hf, by rw [htable]; exact he⟩

theorem contents_opened {db : Opened} (hnew : db.New) : (opened db).contents = [] := by
  refine List.eq_nil_iff_forall_not_mem.mpr fun e he => ?_
  obtain ⟨level, n, ⟨f, hf, -⟩, -⟩ := mem_contents.mp he
  have hfiles : db.versions.nowversion.files level = [] := congrFun hnew.files level
  rw [show (opened db).db.versions = db.versions from rfl, hfiles] at hf
  cases hf

theorem layered_opened {db : Opened} (hnew : db.New) : Layered (opened db) [] := by
  have hlast : (opened db).lastWritten = 0 := hnew.lastSequence
  have hhas (level : Level) (n : Nat) : ¬ (opened db).db.versions.nowversion.Has level n := by
    rintro ⟨f, hf, -⟩
    have hfiles : db.versions.nowversion.files level = [] := congrFun hnew.files level
    rw [show (opened db).db.versions = db.versions from rfl, hfiles] at hf
    cases hf
  exact
    { fits := fun _ h => nomatch h
      le := fun _ h => nomatch h
      lt := by rw [hlast]; decide
      distinct := fun _ h => nomatch h
      mem_iff := fun e => by rw [contents_opened hnew]; simp [opened]
      mem_newer := fun _ h => nomatch h
      imm_newer := fun _ h => nomatch h
      numbers := fun _ level n h => absurd h (hhas level n)
      writer := trivial
      background := trivial }

/-! ## Steps of the writer -/

/-- A number that has been given out stays below the next one. -/
def NumbersGrow (vs vs' : VersionSet) : Prop :=
  ∀ n, (vs.nextFileNumber ≠ 0 → n < vs.nextFileNumber) →
    vs'.nextFileNumber ≠ 0 → n < vs'.nextFileNumber

theorem NumbersGrow.of_eq {vs vs' : VersionSet} (h : vs'.nextFileNumber = vs.nextFileNumber) :
    NumbersGrow vs vs' := by
  intro n hn
  rw [h]
  exact hn

theorem LogsKept.numbersGrow {vs : VersionSet} (h : LogsKept st)
    (hvs : st.db.versions.Advances vs) : NumbersGrow st.db.versions vs := by
  rcases hvs with rfl | ⟨hne, rfl⟩
  · exact .of_eq rfl
  · intro n hn hne'
    have hlt := hn hne
    have hnext := h.nextFileNumber_lt
    simp only [VersionSet.newFileNumber] at hne' ⊢
    omega

theorem advances_keeps {vs vs' : VersionSet} (h : vs.Advances vs') :
    vs'.lastSequence = vs.lastSequence ∧ vs'.nowversion = vs.nowversion := by
  rcases h with rfl | ⟨-, rfl⟩ <;> exact ⟨rfl, rfl⟩

theorem has_congr {v v' : Version} (h : v'.files = v.files) (level : Level) (n : Nat) :
    v'.Has level n ↔ v.Has level n := by
  rw [Version.Has, Version.Has, h]

/-- The flush that goes on does not see a step that leaves its tables alone. -/
theorem Flushing.mono {pc : BackgroundPc} (h : st.Flushing pc)
    (hfiles : st'.db.versions.nowversion.files = st.db.versions.nowversion.files)
    (hnum : NumbersGrow st.db.versions st'.db.versions) (htables : st'.tables = st.tables)
    (himm : st'.immLog = st.immLog) : st'.Flushing pc := by
  have hnew {num : Nat} (hn : st.NewTable num) : st'.NewTable num :=
    ⟨fun level hhas => hn.1 level ((has_congr hfiles level num).mp hhas), hnum num hn.2⟩
  cases pc with
  | idle => trivial
  | building num => exact hnew h
  | applying a =>
    obtain ⟨num, hn, htable, hhas⟩ := h
    refine ⟨num, hnew hn, ?_, fun level n => ?_⟩
    · rw [htables, himm]
      exact htable
    · rw [hhas, has_congr hfiles]

/-- A step that leaves both memtables and the contents of the tables alone. -/
theorem Layered.frame (h : Layered st w) (hmem : st'.memLog = st.memLog)
    (himm : st'.immLog = st.immLog) (hcontents : ∀ e, e ∈ st'.contents ↔ e ∈ st.contents)
    (hfiles : st'.db.versions.nowversion.files = st.db.versions.nowversion.files)
    (hlast : st'.lastWritten = st.lastWritten)
    (hnum : NumbersGrow st.db.versions st'.db.versions)
    (hwriter : st'.Pending st'.writer) (hbackground : st'.Flushing st'.background) :
    Layered st' w where
  fits := h.fits
  le := by rw [hlast]; exact h.le
  lt := by rw [hlast]; exact h.lt
  distinct := h.distinct
  mem_iff e := by rw [hmem, himm, hcontents]; exact h.mem_iff e
  mem_newer := by simp only [hmem, himm, hcontents]; exact h.mem_newer
  imm_newer := by simp only [himm, hcontents]; exact h.imm_newer
  numbers hne level n hhas :=
    hnum n (fun hne => h.numbers hne level n ((has_congr hfiles level n).mp hhas)) hne
  writer := hwriter
  background := hbackground

/-- A step that leaves the tables alone, too. -/
theorem Layered.carry (h : Layered st w) (hmem : st'.memLog = st.memLog)
    (himm : st'.immLog = st.immLog) (htables : st'.tables = st.tables)
    (hfiles : st'.db.versions.nowversion.files = st.db.versions.nowversion.files)
    (hlast : st'.lastWritten = st.lastWritten)
    (hnum : NumbersGrow st.db.versions st'.db.versions)
    (hwriter : st'.Pending st'.writer) (hbackground : st'.background = st.background) :
    Layered st' w := by
  have hcontents : st'.contents = st.contents := by
    rw [contents, contents, hfiles, htables]
  refine h.frame hmem himm (fun e => by rw [hcontents]) hfiles hlast hnum hwriter ?_
  rw [hbackground]
  exact Flushing.mono h.background hfiles hnum htables himm

theorem lastWritten_congr (hwriter : st'.writer = st.writer)
    (hlast : st'.db.versions.lastSequence = st.db.versions.lastSequence) :
    st'.lastWritten = st.lastWritten := by
  rw [lastWritten, lastWritten, hwriter, hlast]

theorem Pending.mono {pc : WriterPc} (h : st.Pending pc)
    (hlast : st'.db.versions.lastSequence = st.db.versions.lastSequence) : st'.Pending pc := by
  cases pc <;> simp only [Pending, hlast] at h ⊢ <;> exact h

/-- `mem_` becomes `imm_`, which was empty. -/
theorem Layered.rotate (h : Layered st w) (himm : st.immLog = []) (hmem' : st'.memLog = [])
    (himm' : st'.immLog = st.memLog) (htables : st'.tables = st.tables)
    (hfiles : st'.db.versions.nowversion.files = st.db.versions.nowversion.files)
    (hlast : st'.lastWritten = st.lastWritten)
    (hnum : NumbersGrow st.db.versions st'.db.versions)
    (hwriter : st'.Pending st'.writer) (hbackground : st'.background = .idle) :
    Layered st' w := by
  have hcontents : st'.contents = st.contents := by
    rw [contents, contents, hfiles, htables]
  exact
    { fits := h.fits
      le := by rw [hlast]; exact h.le
      lt := by rw [hlast]; exact h.lt
      distinct := h.distinct
      mem_iff := fun e => by
        rw [h.mem_iff, hmem', himm', hcontents, himm]
        simp only [List.map_nil, List.not_mem_nil, false_or]
      mem_newer := by
        rw [hmem']
        exact fun _ h => nomatch h
      imm_newer := by
        rw [himm', hcontents]
        exact fun a ha b hb => h.mem_newer a ha b (.inr hb)
      numbers := fun hne level n hhas =>
        hnum n (fun hne => h.numbers hne level n ((has_congr hfiles level n).mp hhas)) hne
      writer := hwriter
      background := by
        rw [hbackground]
        trivial }

theorem lastWritten_eq (h : ∀ q, st.writer ≠ .inserted q) :
    st.lastWritten = st.db.versions.lastSequence := by
  rw [lastWritten]
  split
  · next q hq => exact absurd hq (h q)
  · rfl

theorem Layered.roomStep (h : Layered st w) (hlogs : LogsKept st)
    (hbound : st.db.versions.lastSequence + 1 < 2 ^ 56)
    (hstep : st.roomStep limit create [] = some st') : Layered st' w := by
  obtain ⟨fnt, hfnt, hcases⟩ := roomStep_cases hstep
  have hlast : st.lastWritten = st.db.versions.lastSequence :=
    lastWritten_eq (by rw [hfnt]; exact fun _ h => nomatch h)
  have hpending := h.writer
  rw [hfnt] at hpending
  obtain ⟨-, vs, -, hvs, rfl⟩ | rfl | rfl | ⟨himm, hne, rfl⟩ := hcases
  · obtain ⟨hseq, hnow⟩ := advances_keeps hvs
    refine h.carry rfl rfl rfl (congrArg Version.files hnow) (hseq.trans hlast.symm)
      (hlogs.numbersGrow hvs) ?_ rfl
    obtain ⟨op, hop, hfits⟩ := hpending
    have hupdates : (buildBatchGroup fnt []).setSequence (st.db.versions.lastSequence + 1) =
        .numbered [op] (st.db.versions.lastSequence + 1) := by
      rw [buildBatchGroup, mergeFollowers, hop]
      rfl
    have hcount : addCount st.db.versions.lastSequence 1 = st.db.versions.lastSequence + 1 := by
      rw [addCount]
      omega
    rw [hseq, hupdates, WriteBatch.count_numbered_one, hcount]
    exact ⟨congrArg (· + 1) hseq.symm, hbound, _,
      @WriteBatch.entries_numbered_one op (st.db.versions.lastSequence + 1) hbound hfits, hfits, rfl⟩
  · exact h.carry rfl rfl rfl rfl hlast.symm (.of_eq rfl) trivial rfl
  · exact h
  · refine h.rotate (hlogs.noImm himm) rfl rfl rfl rfl ?_
      (hlogs.numbersGrow (.inr ⟨hne, rfl⟩)) ?_ (hlogs.idle himm)
    · rw [hlast, lastWritten_eq (by rw [hfnt]; exact fun _ h => nomatch h)]
      rfl
    · show Pending _ st.writer
      rw [hfnt]
      exact hpending

theorem Layered.callStep (h : Layered st w) (hidle : st.writer = .idle) {fnt : Writer}
    (hfnt : ∃ op, fnt.batch = .ofOps [op] ∧ (op.entryAt 0).Fits) :
    Layered { st with writer := .room fnt } w := by
  refine h.carry rfl rfl rfl rfl ?_ (.of_eq rfl) hfnt rfl
  rw [lastWritten, lastWritten, hidle]

theorem Layered.appendStep (h : Layered st w) (hstep : st.appendStep appended synced = some st') :
    Layered st' w := by
  obtain ⟨sync, updates, lastSequence, hready, hcases⟩ := appendStep_cases hstep
  have hlast : st.lastWritten = st.db.versions.lastSequence :=
    lastWritten_eq (by rw [hready]; exact fun _ h => nomatch h)
  have hpending := h.writer
  rw [hready] at hpending
  obtain ⟨statue, -, rfl⟩ | ⟨statue, rfl⟩ := hcases
  · exact h.carry rfl rfl rfl rfl hlast.symm (.of_eq rfl) hpending rfl
  · exact h.carry rfl rfl rfl rfl hlast.symm (.of_eq rfl) hpending rfl

theorem distinct_append_singleton
    (h : ∀ a ∈ w, ∀ b ∈ w, a.sequence = b.sequence → a = b)
    (hold : ∀ b ∈ w, b.sequence < e.sequence) :
    ∀ a ∈ w ++ [e], ∀ b ∈ w ++ [e], a.sequence = b.sequence → a = b := by
  intro a ha b hb heq
  rcases List.mem_append.mp ha with ha | ha <;> rcases List.mem_append.mp hb with hb | hb
  · exact h a ha b hb heq
  · rw [List.mem_singleton.mp hb] at heq
    exact absurd heq (hold a ha).ne
  · rw [List.mem_singleton.mp ha] at heq
    exact absurd heq.symm (hold b hb).ne
  · rw [List.mem_singleton.mp ha, List.mem_singleton.mp hb]

theorem Layered.insertStep (h : Layered st w) (hstep : st.insertStep = some st') :
    Layered st' (w ++ st.inserts .insert) := by
  obtain ⟨statue, log, updates, lastSequence, hlogged, hcases⟩ := insertStep_cases hstep
  have hlast : st.lastWritten = st.db.versions.lastSequence :=
    lastWritten_eq (by rw [hlogged]; exact fun _ h => nomatch h)
  have hpending := h.writer
  rw [hlogged] at hpending
  obtain ⟨hseq, hbound, e, hentries, hfits, he⟩ := hpending
  have hold : ∀ b ∈ w, b.sequence < e.sequence := by
    intro b hb
    have := h.le b hb
    omega
  obtain ⟨hno, rfl⟩ | ⟨rfl, rfl⟩ := hcases
  · have hinserts : st.inserts .insert = [] := by
      simp only [inserts, hlogged]
      split
      · next heq =>
        cases heq
        exact absurd rfl hno
      · rfl
    rw [hinserts, List.append_nil]
    exact
      { h with
        le := fun b hb => by
          have := hold b hb
          show b.sequence ≤ lastSequence
          omega
        lt := hbound
        writer := hseq
        background := h.background }
  · have hinserts : st.inserts .insert = [e] := by
      simp only [inserts, hlogged, hentries]
    have hlog : (logEntries log updates).map Prod.snd = [e] := by
      rw [map_snd_logEntries, hentries]
    rw [hinserts]
    -- the entry is newer than all that has been written
    exact
      { fits := List.forall_mem_append.mpr ⟨h.fits, by simpa using hfits⟩
        le := by
          refine List.forall_mem_append.mpr ⟨fun b hb => ?_, ?_⟩
          · have := hold b hb
            show b.sequence ≤ lastSequence
            omega
          · rw [List.forall_mem_singleton]
            exact he.le
        lt := hbound
        distinct := distinct_append_singleton h.distinct hold
        mem_iff := fun b => by
          rw [List.map_append, hlog, List.mem_append, List.mem_append, h.mem_iff b, or_right_comm]
          rfl
        mem_newer := by
          rw [List.map_append, hlog]
          refine List.forall_mem_append.mpr ⟨h.mem_newer, ?_⟩
          rw [List.forall_mem_singleton]
          exact fun b hb => hold b ((h.mem_iff b).mpr (.inr hb))
        imm_newer := h.imm_newer
        numbers := h.numbers
        writer := hseq
        background := h.background }

theorem Layered.publishStep (h : Layered st w) (hstep : st.publishStep = some st') :
    Layered st' w := by
  obtain ⟨lastSequence, hinserted, rfl⟩ := publishStep_cases hstep
  refine h.carry rfl rfl rfl rfl ?_ (.of_eq rfl) trivial rfl
  show lastSequence = _
  rw [lastWritten, hinserted]

/-! ## Steps of the background thread -/

theorem Layered.buildStep (h : Layered st w) (hlogs : LogsKept st)
    (hstep : st.buildStep = some st') : Layered st' w := by
  obtain ⟨-, -, hne, rfl⟩ := buildStep_cases hstep
  have hgrow := hlogs.numbersGrow (.inr ⟨hne, rfl⟩)
  have hnext := hlogs.nextFileNumber_lt
  have hadvanced : Layered { st with
      db := { st.db with versions := st.db.versions.newFileNumber.2 } } w := by
    refine h.carry rfl rfl rfl rfl rfl hgrow ?_ rfl
    exact h.writer
  refine { hadvanced with background := ⟨fun level hhas => ?_, fun hne' => ?_⟩ }
  · exact absurd (h.numbers hne level _ hhas) (Nat.lt_irrefl _)
  · simp only [VersionSet.newFileNumber] at hne' ⊢
    omega

theorem Layered.failFlush (h : Layered st w) (s : State) : Layered (st.failFlush s) w :=
  { h with writer := h.writer, background := trivial }

/-- A table that the current version does not have is no part of its contents. -/
theorem NewTable.mem_contents {num : Nat} (hnew : st.NewTable num)
    (hfiles : st'.db.versions.nowversion.files = st.db.versions.nowversion.files)
    (htables : ∀ n, n ≠ num → st'.tables n = st.tables n) (e : Entry) :
    e ∈ st'.contents ↔ e ∈ st.contents := by
  rw [Session.mem_contents, Session.mem_contents]
  refine exists_congr fun level => exists_congr fun n => ?_
  rw [has_congr hfiles]
  refine and_congr_right fun hhas => ?_
  rw [htables n]
  rintro rfl
  exact hnew.1 level hhas

/-- The edit of a flush adds one file. -/
theorem adds_flushEdit {vs : VersionSet} {f : FileMate} {log : Nat} (level : Level) (n : Nat) :
    (vs.completeEdit ((({} : VersionEdit).addFile 0 f).setLogNumber log)).Adds level n ↔
      level = 0 ∧ n = f.num := by
  constructor
  · rintro ⟨g, hg, rfl⟩
    cases List.mem_singleton.mp hg
    exact ⟨rfl, rfl⟩
  · rintro ⟨rfl, rfl⟩
    exact ⟨f, List.mem_singleton_self _, rfl⟩

theorem Layered.builtStep (h : Layered st w) (hlogs : LogsKept st)
    (hstep : st.builtStep result fileSize shuttingDown io = some st') : Layered st' w := by
  obtain ⟨num, imm, hbuilding, himm, hcases⟩ := builtStep_cases hstep
  have hnew := h.background
  rw [hbuilding] at hnew
  obtain ⟨contents, s, -, rfl⟩ | ⟨vs, disk, a, hbegin, rfl⟩ := hcases
  · refine h.frame rfl rfl (hnew.mem_contents rfl fun n hn => ?_) rfl rfl (.of_eq rfl) h.writer trivial
    exact Function.update_of_ne hn _ _
  · obtain ⟨hbegins, -, hedit, hv⟩ := VersionSet.beginApply_cases hbegin
    have hgrow : NumbersGrow st.db.versions vs := .of_eq hbegins.nextFileNumber
    refine h.frame rfl rfl (hnew.mem_contents hbegins.files fun n hn => ?_) hbegins.files ?_ hgrow ?_ ?_
    · exact Function.update_of_ne hn _ _
    · exact lastWritten_congr rfl hbegins.lastSequence
    · exact Pending.mono h.writer hbegins.lastSequence
    · refine ⟨num, ⟨fun level hhas => hnew.1 level ((has_congr hbegins.files level num).mp hhas),
        hgrow num hnew.2⟩, ?_, fun level n => ?_⟩
      · rw [hlogs.imm imm himm]
        exact Function.update_self ..
      · rw [Builder.has_saveTo_apply hv, hedit, adds_flushEdit, has_congr hbegins.files]
        refine or_congr_right (and_iff_left ?_)
        exact Std.ExtTreeSet.not_mem_empty

/-- The table that is built from `imm_` has its entries. -/
theorem Layered.mem_tableEntries_imm (h : Layered st w)
    (hstored : ∀ p ∈ st.immLog, storedVal p.2.value = p.2.value) :
    e ∈ tableEntries (Memtable.ofEntries (st.immLog.map Prod.snd)).flushlevel0fromskip ↔
      e ∈ st.immLog.map Prod.snd := by
  refine mem_tableEntries_flush (fun e he => ?_) (fun e he => ?_) e
  · have hw := (h.mem_iff e).mpr (.inr (.inl he))
    exact ⟨h.fits e hw, (h.le e hw).trans_lt h.lt⟩
  · obtain ⟨p, hp, rfl⟩ := List.mem_map.mp he
    exact hstored p hp

/-- A table that joins the version adds its entries. -/
theorem mem_contents_installed {num : Nat} {pairs : List (InternalKey × Bytes)}
    (htable : st.tables num = some pairs)
    (hhas : ∀ level n, st'.db.versions.nowversion.Has level n ↔
      level = 0 ∧ n = num ∨ st.db.versions.nowversion.Has level n)
    (htables : ∀ level n, st'.db.versions.nowversion.Has level n → st'.tables n = st.tables n) :
    e ∈ st'.contents ↔ e ∈ tableEntries pairs ∨ e ∈ st.contents := by
  rw [mem_contents]
  constructor
  · rintro ⟨level, n, hn, pairs', hpairs, he⟩
    rw [htables level n hn] at hpairs
    rcases (hhas level n).mp hn with ⟨rfl, rfl⟩ | hold
    · rw [htable] at hpairs
      cases hpairs
      exact .inl he
    · exact .inr (mem_contents.mpr ⟨level, n, hold, pairs', hpairs, he⟩)
  · rintro (he | he)
    · have hn := (hhas 0 num).mpr (.inl ⟨rfl, rfl⟩)
      exact ⟨0, num, hn, pairs, (htables 0 num hn).trans htable, he⟩
    · obtain ⟨level, n, hold, pairs', hpairs, he⟩ := mem_contents.mp he
      have hn := (hhas level n).mpr (.inr hold)
      exact ⟨level, n, hn, pairs', (htables level n hn).trans hpairs, he⟩

/-- The table of `imm_` joins the version, and `imm_` is empty again. -/
theorem Layered.install {num : Nat} (h : Layered st w) (hnew : st.NewTable num)
    (htable : st.tables num =
      some (Memtable.ofEntries (st.immLog.map Prod.snd)).flushlevel0fromskip)
    (hstored : ∀ p ∈ st.immLog, storedVal p.2.value = p.2.value)
    (hmem' : st'.memLog = st.memLog) (himm' : st'.immLog = [])
    (hhas : ∀ level n, st'.db.versions.nowversion.Has level n ↔
      level = 0 ∧ n = num ∨ st.db.versions.nowversion.Has level n)
    (htables : ∀ level n, st'.db.versions.nowversion.Has level n → st'.tables n = st.tables n)
    (hlast : st'.lastWritten = st.lastWritten)
    (hnext : st'.db.versions.nextFileNumber = st.db.versions.nextFileNumber)
    (hwriter : st'.Pending st'.writer) (hbackground : st'.background = .idle) :
    Layered st' w := by
  have hcontents (e : Entry) :
      e ∈ st'.contents ↔ e ∈ st.immLog.map Prod.snd ∨ e ∈ st.contents := by
    rw [mem_contents_installed htable hhas htables, h.mem_tableEntries_imm hstored]
  exact
    { fits := h.fits
      le := by rw [hlast]; exact h.le
      lt := by rw [hlast]; exact h.lt
      distinct := h.distinct
      mem_iff := fun e => by
        rw [h.mem_iff, hmem', himm', hcontents]
        simp only [List.map_nil, List.not_mem_nil, false_or]
      mem_newer := by
        rw [hmem', himm']
        intro a ha b hb
        refine h.mem_newer a ha b ((hcontents b).mp (hb.resolve_left ?_))
        exact List.not_mem_nil
      imm_newer := by
        rw [himm']
        exact fun _ h => nomatch h
      numbers := fun hne level n hn => by
        rw [hnext] at hne ⊢
        rcases (hhas level n).mp hn with ⟨-, rfl⟩ | hold
        · exact hnew.2 hne
        · exact h.numbers hne level n hold
      writer := hwriter
      background := by
        rw [hbackground]
        trivial }

/-- The tables of the version that are listed read back to live ones, so none is deleted. -/
theorem not_mem_deleted {db : FilesInUse} {filenames deleted : List FileName} {n : Nat}
    (hdeleted : db.deleteObsoleteFiles filenames = some deleted)
    (hlive : tableFileName n ∈ filenames → db.versions.Live (readNumber n)) :
    tableFileName n ∉ deleted := by
  rw [FilesInUse.deleteObsoleteFiles] at hdeleted
  split at hdeleted
  · cases hdeleted
    exact List.not_mem_nil
  · rw [FilesInUse.tableFileName_mem_deleteLoop hdeleted, VersionSet.mem_addLiveFiles]
    rintro ⟨hmem, hnot⟩
    exact hnot (.inr (hlive hmem))

theorem Layered.appliedStep (h : Layered st w) (hkeeps : st.KeepsReads (.applied io filenames))
    (hstep : st.appliedStep io filenames = some st') : Layered st' w := by
  obtain ⟨a, happlying, hcases⟩ := appliedStep_cases hstep
  have hflush := h.background
  rw [happlying] at hflush
  obtain ⟨s, disk, -, rfl⟩ | ⟨deleted, disk, hok, hdeleted, rfl⟩ := hcases
  · have happlied : Layered { st with
        db := { st.db with versions := { st.db.versions with descriptorLog := none } }
        disk } w :=
      h.carry rfl rfl rfl rfl rfl (.of_eq rfl) h.writer rfl
    exact happlied.failFlush s
  · obtain ⟨hvalue, hlive⟩ := hkeeps a happlying hok
    obtain ⟨num, hnew, htable, hhas⟩ := hflush
    refine h.install hnew htable hvalue rfl rfl hhas (fun level n hn => ?_)
      (lastWritten_congr rfl rfl) rfl (Pending.mono h.writer rfl) rfl
    exact if_neg (not_mem_deleted hdeleted (hlive level n hn))

/-! ## Runs -/

/-- Both invariants of a session of one client. -/
theorem Layered.step {action : Action} (h : Layered st w) (hlogs : LogsKept st)
    (hclient : OneClient action) (hkeeps : st.KeepsReads action)
    (hstep : step limit action st = some st') : Layered st' (w ++ st.inserts action) := by
  cases action with
  | insert => exact h.insertStep hstep
  | call fnt =>
    obtain ⟨hidle, rfl⟩ := callStep_cases hstep
    exact (List.append_nil w).symm ▸ h.callStep hidle hkeeps
  | room create followers =>
    cases hclient
    exact (List.append_nil w).symm ▸ h.roomStep hlogs hkeeps hstep
  | append appended synced => exact (List.append_nil w).symm ▸ h.appendStep hstep
  | publish => exact (List.append_nil w).symm ▸ h.publishStep hstep
  | build => exact (List.append_nil w).symm ▸ h.buildStep hlogs hstep
  | built result fileSize shuttingDown io => exact (List.append_nil w).symm ▸ h.builtStep hlogs hstep
  | applied io filenames => exact (List.append_nil w).symm ▸ h.appliedStep hkeeps hstep

theorem lastSequence_step {action : Action} (h : Layered st w)
    (hstep : step limit action st = some st') :
    st.db.versions.lastSequence ≤ st'.db.versions.lastSequence := by
  cases action with
  | call fnt =>
    obtain ⟨-, rfl⟩ := callStep_cases hstep
    rfl
  | room create followers =>
    obtain ⟨fnt, -, ⟨-, vs, -, hvs, rfl⟩ | rfl | rfl | ⟨-, -, rfl⟩⟩ := roomStep_cases hstep
    · exact (advances_keeps hvs).1.ge
    all_goals rfl
  | append appended synced =>
    obtain ⟨_, _, _, -, ⟨_, -, rfl⟩ | ⟨_, rfl⟩⟩ := appendStep_cases hstep
    all_goals rfl
  | insert =>
    obtain ⟨_, _, _, _, -, ⟨-, rfl⟩ | ⟨-, rfl⟩⟩ := insertStep_cases hstep
    all_goals rfl
  | publish =>
    obtain ⟨lastSequence, hinserted, rfl⟩ := publishStep_cases hstep
    have hpending := h.writer
    rw [hinserted] at hpending
    exact (Nat.le_succ _).trans hpending.ge
  | build =>
    obtain ⟨-, -, -, rfl⟩ := buildStep_cases hstep
    rfl
  | built result fileSize shuttingDown io =>
    obtain ⟨_, _, -, -, ⟨_, _, -, rfl⟩ | ⟨vs, _, _, hbegin, rfl⟩⟩ := builtStep_cases hstep
    · rfl
    · exact (VersionSet.beginApply_cases hbegin).1.lastSequence.ge
  | applied io filenames =>
    obtain ⟨_, -, ⟨_, _, -, rfl⟩ | ⟨_, _, -, -, rfl⟩⟩ := appliedStep_cases hstep
    all_goals rfl

/-- A step inserts entries above the last sequence number only. -/
theorem Layered.lt_of_mem_inserts {action : Action} (h : Layered st w) (he : e ∈ st.inserts action) :
    st.db.versions.lastSequence < e.sequence := by
  cases action with
  | insert =>
    simp only [inserts] at he
    split at he
    · next log updates lastSequence hlogged =>
      have hpending := h.writer
      rw [hlogged] at hpending
      obtain ⟨hseq, -, e', hentries, -, he'⟩ := hpending
      rw [hentries, List.mem_singleton] at he
      rw [he, he', hseq]
      exact Nat.lt_succ_self _
    · cases he
  | _ => cases he

/-- A step of a session of one client that keeps reads right. -/
def ReadsStep (p : Session × List Entry) (action : Action) : Prop :=
  OneClient action ∧ p.1.KeepsReads action

/-- Both invariants, of a session and what has been written in it. -/
def Sound (p : Session × List Entry) : Prop := LogsKept p.1 ∧ Layered p.1 p.2

/-- `q` comes later: what a lookup at a published sequence number sees is the same. -/
def Later (p q : Session × List Entry) : Prop :=
  p.1.db.versions.lastSequence ≤ q.1.db.versions.lastSequence ∧
    ∀ e : Entry, e.sequence ≤ p.1.db.versions.lastSequence → (e ∈ q.2 ↔ e ∈ p.2)

section
variable {p q : Session × List Entry} {action : Action}

theorem sound_stepWritten (haction : ReadsStep p action)
    (hstep : stepWritten limit action p = some q) (h : Sound p) : Sound q := by
  obtain ⟨st, hst, rfl⟩ := Option.map_eq_some_iff.mp hstep
  exact ⟨h.1.step hst, h.2.step h.1 haction.1 haction.2 hst⟩

theorem later_stepWritten {r : Session × List Entry} (hstep : stepWritten limit action p = some q)
    (h : Sound p) (hlater : Later r p) : Later r q := by
  obtain ⟨st, hst, rfl⟩ := Option.map_eq_some_iff.mp hstep
  refine ⟨hlater.1.trans (lastSequence_step h.2 hst), fun e he => ?_⟩
  rw [List.mem_append, or_iff_left, hlater.2 e he]
  intro hnew
  exact absurd (h.2.lt_of_mem_inserts hnew) (Nat.not_lt.mpr (he.trans hlater.1))

end

theorem Layered.get (h : Layered st w) (hlogs : LogsKept st) (look : st.Lookups) (k : Bytes)
    (s : Nat) :
    ∃ r, IsNewest Entry.userKey Entry.sequence {e | e ∈ w} k s r ∧
      st.get look k (some s) = answer [] r := by
  have hall : {e | e ∈ w} = {e | e ∈ st.memLog.map Prod.snd} ∪
      ({e | e ∈ st.immLog.map Prod.snd} ∪ {e | e ∈ st.contents}) := Set.ext h.mem_iff
  have himm := (look.isNewest_imm k s).layers h.imm_newer (look.isNewest_version k s)
  have hmem := (look.isNewest_mem k s).layers h.mem_newer himm
  refine ⟨_, hall ▸ hmem, ?_⟩
  rw [Session.get, Option.getD_some]
  cases hfirst : look.mem k s with
  | some e => rfl
  | none =>
    dsimp only
    rw [Option.none_or]
    cases hnone : st.db.imm with
    | some imm => cases look.imm k s <;> rfl
    | none =>
      -- without `imm_` there is nothing to find in it
      have hempty := look.isNewest_imm k s
      rw [hlogs.noImm hnone] at hempty
      cases hsecond : look.imm k s with
      | none => rfl
      | some e =>
        rw [hsecond] at hempty
        cases hempty.1.1

/-- In every state of a session of one client whose steps keep reads right, `Get` answers with the
newest entry of the key that has been written, and so it does from then on. -/
theorem get_newestWritten {C : Crc32c} {openIo : OpenIo} {dir : Dir} {db : Opened}
    (hcurrent : dir.disk.current = none) (hlogs : ∀ name, dir.logs name = none)
    (hopen : dir.open C limit openIo = some (.ok, some db))
    (hrun : Steps (stepWritten limit) ReadsStep (opened db, []) (st, w)) (look : st.Lookups)
    (k : Bytes) {s : Nat} (hs : s ≤ st.db.versions.lastSequence) :
    (∃ r, IsNewest Entry.userKey Entry.sequence {e | e ∈ w} k s r ∧
      st.get look k (some s) = answer [] r) ∧
    ∀ st' w' (look' : st'.Lookups), Steps (stepWritten limit) ReadsStep (st, w) (st', w') →
      st'.get look' k (some s) = st.get look k (some s) := by
  have hnew := Dir.open_new hcurrent hlogs hopen
  have hsound : Sound (st, w) := hrun.invariant (fun _ _ _ => sound_stepWritten)
    ⟨logsKept_opened hopen, layered_opened hnew⟩
  obtain ⟨r, hr, hget⟩ := hsound.2.get hsound.1 look k s
  refine ⟨⟨r, hr, hget⟩, fun st' w' look' hrun' => ?_⟩
  have hsound' : Sound (st', w') := hrun'.invariant (fun _ _ _ => sound_stepWritten) hsound
  have hlater : Later (st, w) (st', w') := hrun'.relation
    (fun _ _ => ⟨Nat.le_refl _, fun _ _ => Iff.rfl⟩) (fun _ _ _ => sound_stepWritten)
    (fun _ _ _ _ _ => later_stepWritten) hsound
  obtain ⟨r', hr', hget'⟩ := hsound'.2.get hsound'.1 look' k s
  have hsame : IsNewest Entry.userKey Entry.sequence {e | e ∈ w} k s r' :=
    (isNewest_congr fun e he => hlater.2 e (he.trans hs)).mp hr'
  exact hget'.trans ((congrArg _ (hr.unique hsound.2.distinct hsame).symm).trans hget.symm)

/-! ## A `Put` and a flush -/

/-- The batch that a call logs and inserts. -/
def group (st : Session) (fnt : Writer) (followers : List Writer) : WriteBatch :=
  (buildBatchGroup fnt followers).setSequence (st.db.versions.lastSequence + 1)

/-- Behind a call all of whose steps succeed. -/
def called (st : Session) (fnt : Writer) (followers : List Writer) : Session :=
  { st with
    db := { st.db with
      versions := st.db.versions.setLastSequence
        (addCount st.db.versions.lastSequence (st.group fnt followers).count)
      mem := (st.group fnt followers).entries.foldl Memtable.add st.db.mem }
    memLog := st.memLog ++ logEntries st.db.logfilenum (st.group fnt followers)
    received := st.received ++ logEntries st.db.logfilenum (st.group fnt followers) }

/-- A call that finds room. -/
theorem runAll_call {fnt : Writer} {s : State} (hidle : st.writer = .idle)
    (hturn : (st.db.makeRoomTurn limit fun _ => .ok) = (.leave s, st.db)) :
    runAll (stepWritten limit) [.call fnt, .room .ok followers, .append .ok .ok, .insert, .publish]
      (st, w) = some (st.called fnt followers, w ++ (st.group fnt followers).entries) := by
  have hroom := @roomStep_leaves limit .ok followers { st with writer := .room fnt } fnt s st.db rfl
    hturn
  obtain ⟨db, disk, tables, writer, background, memLog, immLog, received⟩ := st
  cases hidle
  simp [runAll, stepWritten, step, hroom, appendStep, insertStep, publishStep, inserts,
    WriteBatch.insertInto_snd, called, group]

theorem makeRoomTurn_opened {db : Opened} (hnew : db.New)
    (hlimit : ({} : Memtable).approximateMemoryUsage ≤ limit) :
    ((opened db).db.makeRoomTurn limit fun _ => .ok) = (.leave .ok, (opened db).db) := by
  apply DBImpl.makeRoomTurn_leaves
  · rfl
  · show (db.versions.nowversion.files 0).length < _
    rw [hnew.files]
    decide
  · show db.mem.approximateMemoryUsage ≤ _
    rwa [hnew.mem]

/-- A writer with one `Put`, and its entry in a new database. -/
def putWriter (v : Bytes) : Writer := ⟨false, .ofOps [⟨.value, [107], v⟩]⟩

def putEntry (v : Bytes) : Entry := ⟨[107], 1, .value, v⟩

/-- Behind the `Put`. -/
def putSession (v : Bytes) (db : Opened) : Session :=
  { opened db with
    db := { (opened db).db with
      versions := db.versions.setLastSequence 1
      mem := .ofEntries [putEntry v] }
    memLog := [(3, putEntry v)]
    received := [(3, putEntry v)] }

/-- Behind the first turn of the next one. -/
def rotatedSession (v : Bytes) (db : Opened) : Session :=
  { putSession v db with
    db := { (putSession v db).db with
      versions := (db.versions.setLastSequence 1).newFileNumber.2
      logfilenum := db.versions.nextFileNumber
      imm := some (.ofEntries [putEntry v])
      mem := {} }
    writer := .room (putWriter v)
    immLog := [(3, putEntry v)]
    memLog := [] }

variable {v : Bytes} {db : Opened}

theorem runAll_put (hnew : db.New) (hfits : (putEntry v).Fits) : runAll (stepWritten 4096)
    [.call (putWriter v), .room .ok [], .append .ok .ok, .insert, .publish] (opened db, []) =
      some (putSession v db, [putEntry v]) := by
  have hturn : ((opened db).db.makeRoomTurn 4096 fun _ => .ok) = (.leave .ok, (opened db).db) :=
    makeRoomTurn_opened hnew (by decide)
  have hgroup : (opened db).group (putWriter v) [] = .numbered [⟨.value, [107], v⟩] 1 := by
    show (buildBatchGroup (putWriter v) []).setSequence (db.versions.lastSequence + 1) = _
    rw [hnew.lastSequence]
    rfl
  have hentries : (WriteBatch.numbered [⟨.value, [107], v⟩] 1).entries = [putEntry v] :=
    WriteBatch.entries_numbered_one (by decide) hfits
  have hcount : addCount (opened db).db.versions.lastSequence
      (WriteBatch.numbered [⟨.value, [107], v⟩] 1).count = 1 := by
    rw [show (opened db).db.versions.lastSequence = 0 from hnew.lastSequence,
      WriteBatch.count_numbered_one]
    rfl
  have hlog : logEntries (opened db).db.logfilenum (.numbered [⟨.value, [107], v⟩] 1) =
      [(3, putEntry v)] := by
    rw [logEntries, hentries, show (opened db).db.logfilenum = 3 from hnew.logfilenum]
    rfl
  have hmem : (opened db).db.mem = {} := hnew.mem
  rw [runAll_call rfl hturn, called, hgroup, hentries, hcount, hlog, hmem]
  rfl

theorem runAll_rotate (hnew : db.New)
    (hfull : 4096 < (Memtable.ofEntries [putEntry v]).approximateMemoryUsage) :
    runAll (stepWritten 4096) [.call (putWriter v), .room .ok []] (putSession v db, [putEntry v]) =
      some (rotatedSession v db, [putEntry v]) := by
  have hfiles : (putSession v db).db.versions.numLevelFiles 0 < kL0_SlowdownWrites := by
    show (db.versions.nowversion.files 0).length < _
    rw [hnew.files]
    decide
  have hnum : db.versions.nextFileNumber ≠ 0 := by
    rw [hnew.nextFileNumber]
    decide
  have hroom : step 4096 (.room .ok []) { putSession v db with writer := .room (putWriter v) } =
      some (rotatedSession v db) :=
    @roomStep_rotates 4096 .ok [] { putSession v db with writer := .room (putWriter v) } (putWriter v)
      _ rfl (DBImpl.makeRoomTurn_rotates rfl hfiles hfull rfl hnum rfl)
  show ((step 4096 (.room .ok []) { putSession v db with writer := .room (putWriter v) }).map
    _).bind _ = _
  rw [hroom]
  rfl

/-- The table of the flush is the only one. -/
theorem runAll_flush (hnew : db.New) : ∃ st, runAll (stepWritten 4096)
    [.build, .built .ok 100 false {}, .applied {} []] (rotatedSession v db, [putEntry v]) =
      some (st, [putEntry v]) ∧
    st.memLog = [] ∧ st.db.imm = none ∧ st.db.versions.lastSequence = 1 ∧
    ∀ n pairs, st.tables n = some pairs →
      pairs = (Memtable.ofEntries [putEntry v]).flushlevel0fromskip := by
  rcases db with ⟨⟨_, _, _, _, log, _, ⟨_, _, _⟩, _⟩, _, _, _, _, _⟩
  obtain ⟨rfl, rfl, rfl, rfl, rfl, rfl, rfl, -⟩ := hnew
  have htables (n : Nat) (pairs : List (InternalKey × Bytes))
      (h : (if tableFileName n ∈ [] then none else Function.update (fun _ => none) 5
        (some (Memtable.ofEntries [putEntry v]).flushlevel0fromskip) n) = some pairs) :
      pairs = (Memtable.ofEntries [putEntry v]).flushlevel0fromskip := by
    rw [if_neg List.not_mem_nil] at h
    rcases eq_or_ne n 5 with rfl | hne
    · rw [Function.update_self] at h
      exact (Option.some.inj h).symm
    · rw [Function.update_of_ne hne] at h
      cases h
  cases log with
  | none => exact ⟨_, rfl, rfl, rfl, rfl, htables⟩
  | some name => exact ⟨_, rfl, rfl, rfl, rfl, htables⟩

/-- A `Put`, the rotation by the next one, and the flush. -/
def putAndFlush (v : Bytes) : List Action :=
  [.call (putWriter v), .room .ok [], .append .ok .ok, .insert, .publish] ++
    ([.call (putWriter v), .room .ok []] ++ [.build, .built .ok 100 false {}, .applied {} []])

/-- A `Put` of the byte 118 and a flush: `Get` answers with the byte 1. -/
theorem not_get_newestWritten :
    ∃ db st w, ({} : Dir).open .castagnoli 4096 {} = some (.ok, some db) ∧
      Steps (stepWritten 4096) (fun _ action => OneClient action) (opened db, []) (st, w) ∧
      ∃ k, ∃ s ≤ st.db.versions.lastSequence,
        ¬ ∃ r, IsNewest Entry.userKey Entry.sequence {e | e ∈ w} k s r ∧
          st.get st.lookups k (some s) = answer [] r := by
  obtain ⟨db, hopen⟩ := Dir.exists_open_new .castagnoli 4096
  have hnew := Dir.open_new rfl (fun _ => rfl) hopen
  obtain ⟨st, hflush, hmem, himm, hlast, htables⟩ := runAll_flush (v := [118]) hnew
  have hclient : ∀ action ∈ putAndFlush [118], Session × List Entry → OneClient action := by
    have hput : ∃ op, (putWriter [118]).batch = .ofOps [op] := ⟨⟨.value, [107], [118]⟩, rfl⟩
    simp [putAndFlush, OneClient, hput]
  have hrun : runAll (stepWritten 4096) (putAndFlush [118]) (opened db, []) =
      some (st, [putEntry [118]]) := by
    rw [putAndFlush, runAll_append, runAll_put hnew ⟨by decide, by decide⟩, Option.bind_some,
      runAll_append, runAll_rotate hnew (by decide +kernel), Option.bind_some, hflush]
  refine ⟨db, st, [putEntry [118]], hopen, .of_runAll hclient hrun, [107], 1, hlast.ge, ?_⟩
  rintro ⟨r, hr, hget⟩
  -- the entry of the `Put` is the right answer
  cases r with
  | none => exact hr (putEntry [118]) ⟨List.mem_singleton_self _, rfl, Nat.le_refl _⟩
  | some e =>
    cases List.mem_singleton.mp hr.1.1
    have hversion : st.get st.lookups [107] (some 1) = answer [] (st.lookups.version [107] 1) := by
      have hnone : st.lookups.mem [107] 1 = none := by
        show newest _ _ (st.memLog.map Prod.snd) _ _ = none
        rw [hmem]
        rfl
      rw [get, Option.getD_some, hnone, himm]
    rw [hversion] at hget
    have hfound := st.lookups.isNewest_version [107] 1
    cases hlook : st.lookups.version [107] 1 with
    | none =>
      rw [hlook] at hget
      cases hget
    | some e' =>
      rw [hlook] at hget hfound
      obtain ⟨level, n, -, pairs, hpairs, he'⟩ := mem_contents.mp hfound.1.1
      rw [htables n pairs hpairs] at he'
      obtain ⟨⟨key, value⟩, hpair, hparse⟩ := List.mem_filterMap.mp he'
      obtain ⟨p, -, rfl⟩ := Option.map_eq_some_iff.mp hparse
      have hfits : ∀ e ∈ [putEntry [118]], e.Fits := by
        rw [List.forall_mem_singleton]
        exact ⟨by decide, by decide⟩
      obtain ⟨e, he, hnode⟩ := (Memtable.mem_flushlevel0fromskip_ofEntries hfits).mp hpair
      cases List.mem_singleton.mp he
      cases (Node.mk.inj hnode).2
      rw [answer, answer] at hget
      split at hget
      · have hvalue : storedVal (putEntry [118]).value = (putEntry [118]).value := congrArg Prod.snd hget
        exact absurd hvalue (by decide)
      · cases hget

theorem immLog_buildStep {st st' : Session} (h : st.buildStep = some st') :
    st'.immLog = st.immLog := by
  obtain ⟨-, -, -, rfl⟩ := buildStep_cases h
  rfl

theorem immLog_builtStep {st st' : Session} {result : State} {fileSize : ℕ+} {shuttingDown : Bool}
    {io : ManifestIo} (h : st.builtStep result fileSize shuttingDown io = some st') :
    st'.immLog = st.immLog := by
  obtain ⟨_, _, -, -, ⟨_, _, -, rfl⟩ | ⟨_, _, _, -, rfl⟩⟩ := builtStep_cases h <;> rfl

theorem readsStep_call (hfits : (putEntry v).Fits) (p : Session × List Entry) :
    ReadsStep p (.call (putWriter v)) :=
  ⟨⟨⟨.value, [107], v⟩, rfl⟩, ⟨.value, [107], v⟩, rfl, hfits⟩

theorem steps_put (hnew : db.New) (hfits : (putEntry v).Fits) :
    Steps (stepWritten 4096) ReadsStep (opened db, []) (putSession v db, [putEntry v]) := by
  obtain ⟨p₁, hcall, hbehind⟩ := Option.bind_eq_some_iff.mp (runAll_put hnew hfits)
  cases hcall
  obtain ⟨p₂, hroom, hbehind⟩ := Option.bind_eq_some_iff.mp hbehind
  have hbound : db.versions.lastSequence + 1 < 2 ^ 56 := by
    rw [hnew.lastSequence]
    decide
  have hrest : ∀ action ∈ [Action.append .ok .ok, .insert, .publish], ∀ p, ReadsStep p action := by
    simp [ReadsStep, OneClient, KeepsReads]
  refine Steps.head (readsStep_call hfits _) rfl ?_
  exact Steps.head (l := .room .ok []) ⟨rfl, hbound⟩ hroom (.of_runAll hrest hbehind)

theorem steps_rotate (hnew : db.New) (hfits : (putEntry v).Fits)
    (hfull : 4096 < (Memtable.ofEntries [putEntry v]).approximateMemoryUsage) :
    Steps (stepWritten 4096) ReadsStep (putSession v db, [putEntry v])
      (rotatedSession v db, [putEntry v]) := by
  obtain ⟨p₁, hcall, hbehind⟩ := Option.bind_eq_some_iff.mp (runAll_rotate hnew hfull)
  cases hcall
  obtain ⟨p₂, hroom, hbehind⟩ := Option.bind_eq_some_iff.mp hbehind
  cases hbehind
  have hbound : 1 + 1 < 2 ^ 56 := by decide
  refine Steps.head (readsStep_call hfits _) rfl ?_
  exact Steps.head (l := .room .ok []) ⟨rfl, hbound⟩ hroom (.refl _)

/-- A flush of a value that its `Val` leaves alone. -/
theorem steps_flush (hkept : storedVal v = v) {st : Session} {w : List Entry}
    (h : runAll (stepWritten 4096) [.build, .built .ok 100 false {}, .applied {} []]
      (rotatedSession v db, [putEntry v]) = some (st, w)) :
    Steps (stepWritten 4096) ReadsStep (rotatedSession v db, [putEntry v]) (st, w) := by
  obtain ⟨⟨st₁, w₁⟩, hbuild, hbehind⟩ := Option.bind_eq_some_iff.mp h
  obtain ⟨⟨st₂, w₂⟩, hbuilt, hbehind⟩ := Option.bind_eq_some_iff.mp hbehind
  obtain ⟨p₃, happlied, hbehind⟩ := Option.bind_eq_some_iff.mp hbehind
  cases hbehind
  have himmLog : st₂.immLog = [(3, putEntry v)] := by
    obtain ⟨_, hst₁, heq₁⟩ := Option.map_eq_some_iff.mp hbuild
    obtain ⟨_, hst₂, heq₂⟩ := Option.map_eq_some_iff.mp hbuilt
    cases heq₁
    cases heq₂
    have hfirst : (rotatedSession v db).buildStep = some st₁ := hst₁
    have hsecond : st₁.builtStep .ok 100 false {} = some st₂ := hst₂
    exact (immLog_builtStep hsecond).trans (immLog_buildStep hfirst)
  refine Steps.head (l := .build) ⟨trivial, trivial⟩ hbuild ?_
  refine Steps.head (l := .built .ok 100 false {}) ⟨trivial, trivial⟩ hbuilt ?_
  refine Steps.head (l := .applied {} []) ⟨trivial, fun a _ _ => ⟨?_, ?_⟩⟩ happlied (.refl _)
  · rw [himmLog, List.forall_mem_singleton]
    exact hkept
  · intro _ _ _ hdeleted
    cases hdeleted

/-- Of the empty value. -/
theorem get_newestWritten_flush :
    ∃ db st, ({} : Dir).open .castagnoli 4096 {} = some (.ok, some db) ∧
      st.memLog = [] ∧ st.db.imm = none ∧
      (∃ r, IsNewest Entry.userKey Entry.sequence {e | e ∈ [putEntry []]} [107] 1 r ∧
        st.get st.lookups [107] (some 1) = answer [] r) ∧
      ∀ st' w (look : st'.Lookups),
        Steps (stepWritten 4096) ReadsStep (st, [putEntry []]) (st', w) →
          st'.get look [107] (some 1) = st.get st.lookups [107] (some 1) := by
  obtain ⟨db, hopen⟩ := Dir.exists_open_new .castagnoli 4096
  have hnew := Dir.open_new rfl (fun _ => rfl) hopen
  have hfits : (putEntry []).Fits := ⟨by decide, by decide⟩
  obtain ⟨st, hflush, hmem, himm, hlast, -⟩ := runAll_flush (v := []) hnew
  have hrun := (steps_put hnew hfits).trans
    ((steps_rotate hnew hfits (by decide +kernel)).trans (steps_flush rfl hflush))
  exact ⟨db, st, hopen, hmem, himm,
    get_newestWritten rfl (fun _ => rfl) hopen hrun st.lookups [107] hlast.ge⟩

end Session
end Yubindb
