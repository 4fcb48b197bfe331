import Yubindb.Db.LogRoundTrip
import Yubindb.Theory.Steps
import Yubindb.Util.PosixFiles

/-!
# What a power failure leaves of a log

`walWriter` on a file of a volume, in `src/db/walog.cpp`, with `WritableFile::Sync` and the calls of the
other threads on other files in between.
-/

namespace Yubindb

/-! ## Records and bytes -/

/-- Each record ends in the block in which it begins. -/
def InBlocks : Nat → List Bytes → Prop
  | _, [] => True
  | off, str :: records =>
    str.length ≤ available off ∧ InBlocks (headerStart off + kHeaderSize + str.length) records

instance : ∀ off records, Decidable (InBlocks off records)
  | _, [] => inferInstanceAs (Decidable True)
  | off, str :: records =>
    have := instDecidableInBlocks (headerStart off + kHeaderSize + str.length) records
    inferInstanceAs (Decidable (_ ∧ _))

namespace WalWriter

/-- A log of these records in an empty buffer. -/
def written (C : Crc32c) (records : List Bytes) : WalWriter WritableFile :=
  ⟨⟨[], logBytes C records⟩, endOffset 0 (emission 0 records), emission 0 records⟩

@[simp] theorem buf_written (C : Crc32c) (records : List Bytes) :
    (written C records).file.buf = [] := rfl

@[simp] theorem disk_written (C : Crc32c) (records : List Bytes) :
    (written C records).file.disk = logBytes C records := rfl

theorem appendAll_written (C : Crc32c) (records : List Bytes) :
    appendAll C (new WritableFile.empty) records = some (written C records) :=
  appendAll_new C records

theorem appendrecord_written (C : Crc32c) (records : List Bytes) (str : Bytes) :
    (written C records).appendrecord C str = some (.ok, written C (records ++ [str])) := by
  rw [appendrecord, written, appendLoop_eq, ite_self]
  simp only [written, logBytes, emission_append, emission, List.append_nil, List.flatMap_append,
    endOffset_append]

end WalWriter

theorem logBytes_mono (C : Crc32c) {records records' : List Bytes} (h : records <+: records') :
    logBytes C records <+: logBytes C records' := by
  obtain ⟨rest, rfl⟩ := h
  rw [logBytes, logBytes, WalWriter.emission_append, List.flatMap_append]
  exact List.prefix_append _ _

/-! ## Reading a front of a log -/

/-- The end of a record, in its block. -/
theorem PhysRecord.Placed.mod_stop {e : PhysRecord} {off : Nat} (h : e.Placed off)
    (hoff : off ≤ kBlockSize) (k : Nat) :
    (off + (e.size + k)) % kBlockSize = (e.stop + k) % kBlockSize := by
  obtain ⟨htrailer, hoffset, -, -⟩ := h
  rw [PhysRecord.size, PhysRecord.stop, htrailer, hoffset, kBlockSize_eq, kHeaderSize_eq]
  rw [kBlockSize_eq] at hoff
  rcases headerStart_cases off with ⟨_, hs, hp⟩ | ⟨_, hs, hp⟩ <;> omega

theorem contained_front (n : Nat) (es : List PhysRecord) : contained n es <+: es := by
  induction es generalizing n with
  | nil => exact List.prefix_refl _
  | cons e es ih =>
    rw [contained]
    split
    · exact (List.prefix_cons_inj e).mpr (ih _)
    · exact List.nil_prefix

/-- Records whose bytes the front has are contained in it. -/
theorem prefix_contained {C : Crc32c} {n : Nat} {es : List PhysRecord} (es' : List PhysRecord)
    (h : (es.flatMap (PhysRecord.bytes C)).length ≤ n) : es <+: contained n (es ++ es') := by
  induction es generalizing n with
  | nil => exact List.nil_prefix
  | cons e es ih =>
    rw [List.flatMap_cons, List.length_append, PhysRecord.length_bytes] at h
    rw [List.cons_append, contained, if_pos (by omega)]
    exact (List.prefix_cons_inj e).mpr (ih (by omega))

namespace InBlocks
variable {off : Nat} {records : List Bytes}

theorem emission_full (h : InBlocks off records) (hne : ∀ str ∈ records, str ≠ []) :
    (∀ e ∈ WalWriter.emission off records, e.type = .full) ∧
      (WalWriter.emission off records).map PhysRecord.payload = records := by
  induction records generalizing off with
  | nil => exact ⟨List.forall_mem_nil _, rfl⟩
  | cons str records ih =>
    obtain ⟨hstr, hne⟩ := List.forall_mem_cons.mp hne
    have hemission := fragments_take_of_fits hstr h.1
    obtain ⟨hfull, hpayload⟩ := ih h.2 hne
    rw [WalWriter.emission, hemission]
    exact ⟨List.forall_mem_cons.mpr ⟨rfl, hfull⟩, congrArg (str :: ·) hpayload⟩

theorem of_append {records' : List Bytes} (h : InBlocks off (records ++ records')) :
    InBlocks off records := by
  induction records generalizing off with
  | nil => trivial
  | cons str records ih => exact ⟨h.1, ih h.2⟩

end InBlocks

namespace Reader
variable {off n : Nat} {r : Reader} {C : Crc32c} {es : List PhysRecord}

theorem At.readRecords_end (h : At off rest r) {c : Prop} [Decidable c]
    (hend : (readPhysicalRecord C r []).map Prod.fst = if c then none else some kEof) :
    readRecords C r = if c then none else some [] := by
  have hskip : ¬ r.lastRecordOffset < r.initialOffset := by
    rw [h.initialOffset]
    exact Nat.not_lt_zero _
  rw [readRecords]
  split at hend
  · next hc =>
    rw [Option.map_eq_none_iff] at hend
    simp [readRecord, hskip, hend, hc]
  · next hc =>
    obtain ⟨⟨code, frame, r'⟩, hread, rfl⟩ := Option.map_eq_some_iff.mp hend
    simp [readRecord, hskip, hread, hc, kEof, RecordType.code]

/-- On a front of a log whose records are whole in their blocks, the records that the front holds are
read, unless the front ends with a block. -/
theorem At.readRecords_contained (h : At off ((es.flatMap (PhysRecord.bytes C)).take n) r)
    (hoff : 0 < off) (hchain : Chained off es)
    (hn : n ≤ (es.flatMap (PhysRecord.bytes C)).length) (hfull : ∀ e ∈ es, e.type = .full) :
    readRecords C r = if (off + n) % kBlockSize = 0 then none
      else some ((contained n es).map PhysRecord.payload) := by
  induction es generalizing off n r with
  | nil => exact h.readRecords_end (h.readPhysicalRecord_end hoff hchain hn (by simp))
  | cons e es ih =>
    by_cases hsize : e.size ≤ n
    · obtain ⟨k, rfl⟩ := Nat.exists_eq_add_of_le hsize
      have hbytes := PhysRecord.length_bytes C e
      rw [List.flatMap_cons, List.length_append, hbytes] at hn
      rw [List.flatMap_cons, ← hbytes, List.take_length_add_append] at h
      have htype := hfull e List.mem_cons_self
      obtain ⟨r₁, hread, hat⟩ := h.readRecord_whole hchain.1 (.inl htype)
      have hpos : 0 < e.stop := by simp [PhysRecord.stop, kHeaderSize_eq]
      have htail := ih hat hpos hchain.2 (by omega) fun e' he' =>
        hfull e' (List.mem_cons_of_mem _ he')
      have hmod := hchain.1.mod_stop h.le k
      rw [readRecords, hread, hmod, contained, if_pos hsize, Nat.add_sub_cancel_left]
      simp only [htype, decide_true, Option.bind_eq_bind, Option.bind_some, if_true, htail]
      split <;> rfl
    · have htorn : ∀ e' ∈ (e :: es).head?, n < e'.size := by
        rintro e' ⟨⟩
        exact Nat.lt_of_not_le hsize
      rw [contained, if_neg hsize]
      exact h.readRecords_end (h.readPhysicalRecord_end hoff hchain hn htorn)

/-- Of a log whose records are whole in their blocks, a front reads as some of the first records, and
as all those that it holds; and where the front ends with a block, the reading runs off its end. -/
theorem readRecords_of_prefix {records acked : List Bytes} {p : Bytes}
    (hblocks : InBlocks 0 (stored records)) (hp : p <+: logBytes C records)
    (hacked : acked <+: records) (hheld : logBytes C acked <+: p) :
    p.length % kBlockSize = 0 ∧ readRecords C (.new ⟨p⟩ true 0) = none ∨
      p.length % kBlockSize ≠ 0 ∧ ∃ read, readRecords C (.new ⟨p⟩ true 0) = some read ∧
        stored acked <+: read ∧ read <+: stored records := by
  obtain ⟨hfull, hpayload⟩ := hblocks.emission_full fun str => ne_nil_of_mem_stored
  have hchain := emission_chained 0 (stored records)
  rw [← logBytes_stored, logBytes] at hp hheld
  obtain ⟨rest, hrest⟩ : stored acked <+: stored records := hacked.filter _
  rw [← hrest] at hblocks
  have hpayload' := (hblocks.of_append.emission_full fun str => ne_nil_of_mem_stored).2
  have hback := (prefix_contained (WalWriter.emission
    (endOffset 0 (WalWriter.emission 0 (stored acked))) rest) hheld.length_le).map PhysRecord.payload
  rw [← WalWriter.emission_append, hrest, hpayload'] at hback
  have hfront := (contained_front p.length (WalWriter.emission 0 (stored records))).map
    PhysRecord.payload
  rw [hpayload] at hfront
  have htake : p = ((WalWriter.emission 0 (stored records)).flatMap (PhysRecord.bytes C)).take
    p.length := List.prefix_iff_eq_take.mp hp
  have hat : At kBlockSize (((WalWriter.emission 0 (stored records)).flatMap
    (PhysRecord.bytes C)).take p.length) (new ⟨p⟩ true 0) := htake ▸ at_new p
  have hread := hat.readRecords_contained (by decide) hchain.of_zero hp.length_le hfull
  rw [Nat.add_mod_left] at hread
  by_cases hmod : p.length % kBlockSize = 0
  · exact .inl ⟨hmod, hread.trans (if_pos hmod)⟩
  · exact .inr ⟨hmod, _, hread.trans (if_neg hmod), hback, hfront⟩

end Reader

/-! ## A log that is being written -/

/-- A file with a `walWriter`, on a volume that other calls change too. -/
structure WalFile where
  volume : DbVolume
  writer : WalWriter WritableFile := .new .empty
  /-- Ghosts: the records so far, and those so far at the last `Sync` that returned `Ok`. -/
  records : List Bytes := []
  acked : Option (List Bytes) := none

inductive WalAction
  | appendrecord (str : Bytes)
  | sync (io : PosixIo)
  /-- A call on another file. -/
  | other (call : DbCall)

instance Volume.decidableSpares (v : DbVolume) (name : FileName) (fd : Nat) :
    ∀ call, Decidable (v.Spares name fd call)
  | .create _ => inferInstanceAs (Decidable (_ ∧ _))
  | .write .. | .fsync _ => inferInstanceAs (Decidable (_ ≠ _))
  | .fsyncDir => inferInstanceAs (Decidable True)
  | .rename .. => inferInstanceAs (Decidable (_ ∧ _))
  | .unlink _ => inferInstanceAs (Decidable (_ ≠ _))

namespace WalFile

/-- `NewWritableFile`. -/
def opened (v : DbVolume) (name : FileName) : WalFile := { volume := v.run (.create name) }

/-- The calls of an action on the file with this name and number, and the file behind it. The `::write`
of an append takes all its bytes. `Sync` flushes behind the directory. -/
def act (C : Crc32c) (name : FileName) (fd : Nat) :
    WalAction → WalFile → Option (List DbCall × WalFile)
  | .appendrecord str, f =>
    (f.writer.appendrecord C str).map fun (_, writer) =>
      ([.write fd (writer.file.disk.drop f.writer.file.disk.length)],
        { f with writer, records := f.records ++ [str] })
  | .sync io, f =>
    let (s, calls) := io.sync name fd f.writer.file.buf
    let file := if .write fd f.writer.file.buf ∈ calls then f.writer.file.flush.2 else f.writer.file
    some (calls, { f with
      writer := { f.writer with file }
      acked := if s = .ok then some f.records else f.acked })
  | .other call, f => if f.volume.Spares name fd call then some ([call], f) else none

def step (C : Crc32c) (name : FileName) (fd : Nat) (action : WalAction) (f : WalFile) :
    Option WalFile :=
  (f.act C name fd action).map fun (calls, f') => { f' with volume := f.volume.after calls }

/-- What holds of a file while it is written. -/
structure Inv (C : Crc32c) (name : FileName) (fd : Nat) (f : WalFile) : Prop where
  names : f.volume.names name = some fd
  writer : f.writer = .written C f.records
  appended : ∃ kept more, f.volume.Appended fd kept more ∧ kept ++ more = logBytes C f.records ∧
    ∀ acked ∈ f.acked, acked <+: f.records ∧ logBytes C acked <+: kept
  bound : ismanifest name = true → f.acked.isSome → f.volume.Bound name fd

/-- The calls of `Sync` when the buffer is empty. -/
def IsSyncCall (fd : Nat) (call : DbCall) : Prop :=
  call = .fsyncDir ∨ call = .write fd [] ∨ call = .fsync fd

variable {C : Crc32c} {name : FileName} {fd : Nat} {f f' : WalFile} {calls : List DbCall}
  {call : DbCall} {io : PosixIo} {action : WalAction}

theorem isSyncCall_of_mem (h : call ∈ (io.sync name fd []).2) : IsSyncCall fd call := by
  rw [PosixIo.sync] at h
  split_ifs at h <;> grind [IsSyncCall]

/-- `Sync` succeeds only with all of its calls. -/
theorem sync_of_ok {buf : Bytes} (h : (io.sync name fd buf).1 = .ok) :
    (io.sync name fd buf).2 =
      (if ismanifest name then [.fsyncDir] else []) ++ [.write fd buf, .fsync fd] := by
  rw [PosixIo.sync] at h ⊢
  split_ifs at h ⊢ <;> simp_all

theorem eq_nil_of_prefix_singleton {front : List DbCall} (h : front <+: [call])
    (hne : front ≠ [call]) : front = [] := by
  have hcases : front = [] ++ [call] ∨ front <+: [] := List.prefix_concat_iff.mp h
  exact List.prefix_nil.mp (hcases.resolve_left hne)

namespace Inv

theorem opened {v : DbVolume} (C : Crc32c) (hnew : v.names name = none) :
    Inv C name v.next (opened v name) where
  names := by
    rw [WalFile.opened, Volume.names_create, Volume.fd, hnew]
    rfl
  writer := rfl
  appended := ⟨[], [], .create hnew, rfl, fun acked h =>
    absurd h (Option.not_mem_none acked)⟩
  bound _ h := absurd h Bool.false_ne_true

/-- A call that keeps the names and the file. -/
theorem of_call (h : Inv C name fd f) (hnames : (f.volume.run call).names name = some fd)
    (happended : ∀ {kept more}, f.volume.Appended fd kept more →
      ∃ kept' more', (f.volume.run call).Appended fd kept' more' ∧ kept' ++ more' = kept ++ more ∧
        kept <+: kept')
    (hbound : f.volume.Bound name fd → (f.volume.run call).Bound name fd) :
    Inv C name fd { f with volume := f.volume.run call } where
  names := hnames
  writer := h.writer
  appended := by
    obtain ⟨kept, more, hkept, hbytes, hacked⟩ := h.appended
    obtain ⟨kept', more', happ, heq, hle⟩ := happended hkept
    exact ⟨kept', more', happ, heq.trans hbytes, fun acked ha =>
      ⟨(hacked acked ha).1, (hacked acked ha).2.trans hle⟩⟩
  bound hname hsome := hbound (h.bound hname hsome)

theorem spared (h : Inv C name fd f) (hcall : f.volume.Spares name fd call) :
    Inv C name fd { f with volume := f.volume.run call } :=
  h.of_call ((Volume.names_spared hcall).trans h.names)
    (fun happ => ⟨_, _, happ.spared hcall, rfl, List.prefix_refl _⟩) fun hbound => hbound.spared hcall

theorem syncCall (h : Inv C name fd f) (hcall : IsSyncCall fd call) :
    Inv C name fd { f with volume := f.volume.run call } := by
  rcases hcall with rfl | rfl | rfl
  · exact h.spared trivial
  · refine h.of_call h.names (fun {kept more} happ => ?_) id
    exact ⟨kept, more, by simpa using happ.write [], rfl, List.prefix_refl _⟩
  · refine h.of_call h.names (fun {kept more} happ => ?_) id
    exact ⟨kept ++ more, [], happ.fsync, List.append_nil _, List.prefix_append _ _⟩

theorem syncCalls (h : Inv C name fd f) (hcalls : ∀ call ∈ calls, IsSyncCall fd call) :
    Inv C name fd { f with volume := f.volume.after calls } := by
  induction calls generalizing f with
  | nil => exact h
  | cons call calls ih =>
    obtain ⟨hcall, hcalls⟩ := List.forall_mem_cons.mp hcalls
    exact ih (h.syncCall hcall) hcalls

/-- Behind a `Sync` that succeeds, all records are on the medium. -/
theorem synced (h : Inv C name fd f) (hok : (io.sync name fd []).1 = .ok) :
    Inv C name fd { f with
      volume := f.volume.after (io.sync name fd []).2, acked := some f.records } := by
  have hdir : ∀ call ∈ if ismanifest name then [Syscall.fsyncDir] else [], IsSyncCall fd call := by
    split <;> simp [IsSyncCall]
  have hflushed := h.syncCalls hdir
  have hbound : ismanifest name = true → (f.volume.after
      (if ismanifest name then [Syscall.fsyncDir] else [])).Bound name fd := by
    intro hname
    rw [if_pos hname]
    exact .fsyncDir h.names
  rw [sync_of_ok hok, Volume.after_append]
  generalize f.volume.after (if ismanifest name then [Syscall.fsyncDir] else []) = v at hflushed hbound
  obtain ⟨kept, more, happ, hbytes, -⟩ := hflushed.appended
  refine ⟨hflushed.names, h.writer, ⟨_, [], (happ.write []).fsync, ?_, ?_⟩, fun hname _ => hbound hname⟩
  · rw [List.append_nil, List.append_nil]
    exact hbytes
  · rintro acked ⟨⟩
    rw [List.append_nil]
    exact ⟨List.prefix_refl _, hbytes ▸ List.prefix_refl _⟩

/-- The calls of an action lead from state to state of a file: a front of them behind the action's start,
and all of them to its end. -/
theorem act (h : Inv C name fd f) (hact : f.act C name fd action = some (calls, f')) :
    Inv C name fd { f' with volume := f.volume.after calls } ∧
      ∀ front, front <+: calls → front ≠ calls →
        Inv C name fd { f with volume := f.volume.after front } := by
  obtain ⟨volume, writer, records, acked⟩ := f
  obtain rfl : writer = .written C records := h.writer
  cases action with
  | appendrecord str =>
    rw [WalFile.act, WalWriter.appendrecord_written] at hact
    obtain ⟨rfl, rfl⟩ := Prod.mk.inj (Option.some.inj hact)
    refine ⟨⟨h.names, rfl, ?_, h.bound⟩, fun front hfront hne => ?_⟩
    · obtain ⟨kept, more, happ, hbytes, hacked⟩ := h.appended
      obtain ⟨rest, hrest⟩ := logBytes_mono C (List.prefix_append records [str])
      refine ⟨kept, more ++ rest, ?_, ?_, fun acked ha => ?_⟩
      · have hdata : (logBytes C (records ++ [str])).drop (logBytes C records).length = rest := by
          rw [← hrest, List.drop_left]
        exact hdata ▸ happ.write _
      · rw [← List.append_assoc, hbytes]
        exact hrest
      · exact ⟨(hacked acked ha).1.trans (List.prefix_append _ _), (hacked acked ha).2⟩
    · rw [eq_nil_of_prefix_singleton hfront hne]
      exact h
  | sync io =>
    have hfile : (WalWriter.written C records).file.flush.2 = (WalWriter.written C records).file :=
      congrArg (WritableFile.mk []) (List.append_nil _)
    simp only [WalFile.act, hfile, ite_self] at hact
    generalize hr : io.sync name fd (WalWriter.written C records).file.buf = r at hact
    change io.sync name fd [] = r at hr
    obtain ⟨s, cs⟩ := r
    obtain ⟨rfl, rfl⟩ := Prod.mk.inj (Option.some.inj hact)
    have hcs : (io.sync name fd []).2 = cs := congrArg Prod.snd hr
    have hcalls : ∀ call ∈ cs, IsSyncCall fd call :=
      fun call hcall => isSyncCall_of_mem (hcs.symm ▸ hcall)
    refine ⟨?_, fun front hfront _ =>
      h.syncCalls fun call hcall => hcalls call (hfront.subset hcall)⟩
    by_cases hok : s = .ok
    · simp only [if_pos hok]
      exact hcs ▸ h.synced ((congrArg Prod.fst hr).trans hok)
    · simp only [if_neg hok]
      exact h.syncCalls hcalls
  | other call =>
    rw [WalFile.act] at hact
    split at hact
    · next hspares =>
      obtain ⟨rfl, rfl⟩ := Prod.mk.inj (Option.some.inj hact)
      refine ⟨h.spared hspares, fun front hfront hne => ?_⟩
      rw [eq_nil_of_prefix_singleton hfront hne]
      exact h
    · cases hact

end Inv

theorem ghosts_of_act (hact : f.act C name fd action = some (calls, f')) :
    f.records <+: f'.records ∧ (f'.acked = f.acked ∨ f'.acked = some f.records) := by
  cases action with
  | appendrecord str =>
    obtain ⟨r, -, heq⟩ := Option.map_eq_some_iff.mp hact
    obtain ⟨-, rfl⟩ := Prod.mk.inj heq
    exact ⟨List.prefix_append _ _, .inl rfl⟩
  | sync io =>
    obtain ⟨-, rfl⟩ := Prod.mk.inj (Option.some.inj hact)
    exact ⟨List.prefix_refl _, (ite_eq_or_eq _ _ _).symm⟩
  | other call =>
    rw [act] at hact
    split at hact
    · obtain ⟨-, rfl⟩ := Prod.mk.inj (Option.some.inj hact)
      exact ⟨List.prefix_refl _, .inl rfl⟩
    · cases hact

theorem act_appendrecord (name : FileName) (fd : Nat) (str : Bytes)
    (hwriter : f.writer = .written C f.records) :
    ∃ calls, f.act C name fd (.appendrecord str) =
      some (calls, ⟨f.volume, .written C (f.records ++ [str]), f.records ++ [str], f.acked⟩) := by
  rw [act, hwriter, WalWriter.appendrecord_written]
  exact ⟨_, rfl⟩

theorem step_of_act (hact : f.act C name fd action = some (calls, f')) :
    f.step C name fd action = some { f' with volume := f.volume.after calls } :=
  congrArg (Option.map _) hact

theorem inv_of_steps {f₀ : WalFile} {P : WalFile → WalAction → Prop}
    (h : Steps (step C name fd) P f₀ f) (h₀ : Inv C name fd f₀) : Inv C name fd f := by
  refine h.invariant (fun s action t _ hstep hs => ?_) h₀
  obtain ⟨⟨calls, f'⟩, hact, rfl⟩ := Option.map_eq_some_iff.mp hstep
  exact (hs.act hact).1

theorem Inv.acked_front (h : Inv C name fd f) {acked : List Bytes} (hacked : acked ∈ f.acked) :
    acked <+: f.records := by
  obtain ⟨_, _, _, _, hkept⟩ := h.appended
  exact (hkept acked hacked).1

/-- What a power failure leaves of a file that is written. -/
theorem Inv.crash (h : Inv C name fd f) {acked : List Bytes} (hacked : acked ∈ f.acked)
    (hbound : f.volume.Bound name fd) {w : DbVolume} (hcrash : f.volume.Crash w) :
    ∃ p, w.read name = some p ∧ logBytes C acked <+: p ∧ p <+: logBytes C f.records := by
  obtain ⟨kept, more, happ, hbytes, hkept⟩ := h.appended
  obtain ⟨front, hfront, hread⟩ := hbound.crash happ hcrash
  refine ⟨_, hread, (hkept acked hacked).2.trans (List.prefix_append _ _), ?_⟩
  rw [← hbytes]
  exact (List.prefix_append_right_inj _).mpr hfront

/-- The same between two calls of an action. -/
theorem Inv.crash_act (h : Inv C name fd f) (hact : f.act C name fd action = some (calls, f'))
    {front : List DbCall} (hfront : front <+: calls) {acked : List Bytes} (hacked : acked ∈ f.acked)
    (hbound : (f.volume.after front).Bound name fd) {w : DbVolume}
    (hcrash : (f.volume.after front).Crash w) :
    ∃ p, w.read name = some p ∧ logBytes C acked <+: p ∧ p <+: logBytes C f'.records := by
  obtain ⟨hall, hmid⟩ := h.act hact
  obtain ⟨hrecords, hghost⟩ := ghosts_of_act hact
  by_cases hend : front = calls
  · rw [hend] at hcrash hbound
    obtain ⟨acked', hacked', hmore⟩ : ∃ acked' ∈ f'.acked, acked <+: acked' := by
      rcases hghost with heq | heq
      · exact ⟨acked, heq ▸ hacked, List.prefix_refl _⟩
      · exact ⟨f.records, heq, h.acked_front hacked⟩
    obtain ⟨p, hread, hle, hp⟩ := hall.crash hacked' hbound hcrash
    exact ⟨p, hread, (logBytes_mono C hmore).trans hle, hp⟩
  · obtain ⟨p, hread, hle, hp⟩ := (hmid front hfront hend).crash hacked hbound hcrash
    exact ⟨p, hread, hle, hp.trans (logBytes_mono C hrecords)⟩

/-- The call is on the file. -/
def OwnCall (fd : Nat) : DbCall → Prop
  | .write i _ | .fsync i => i = fd
  | .fsyncDir => True
  | .create _ | .rename .. | .unlink _ => False

theorem OwnCall.keepsNames (h : OwnCall fd call) : Volume.KeepsNames call := by
  cases call with
  | write i data | fsync i | fsyncDir => trivial
  | create n | unlink n => exact h.elim
  | rename src dst => exact h.elim

theorem OwnCall.spares {n : FileName} {i : Nat} (h : OwnCall fd call) (hne : fd ≠ i) (v : DbVolume) :
    v.Spares n i call := by
  cases call with
  | write j data | fsync j =>
    cases h
    exact hne
  | fsyncDir => trivial
  | create n | unlink n => exact h.elim
  | rename src dst => exact h.elim

theorem ownCall_of_mem {buf : Bytes} (h : call ∈ (io.sync name fd buf).2) : OwnCall fd call := by
  rw [PosixIo.sync] at h
  split_ifs at h <;> simp at h <;> rcases h with rfl | rfl | rfl <;> trivial

/-- The calls of an action are on the file, or there is one on another file. -/
theorem front_cases (hact : f.act C name fd action = some (calls, f')) {front : List DbCall}
    (hfront : front <+: calls) :
    (∀ call ∈ front, OwnCall fd call) ∨
      ∃ call, action = .other call ∧ f.volume.Spares name fd call ∧ front = [call] := by
  cases action with
  | appendrecord str =>
    obtain ⟨r, -, heq⟩ := Option.map_eq_some_iff.mp hact
    obtain ⟨rfl, -⟩ := Prod.mk.inj heq
    refine .inl fun call hcall => ?_
    rw [List.mem_singleton.mp (hfront.subset hcall)]
    rfl
  | sync io =>
    obtain ⟨rfl, -⟩ := Prod.mk.inj (Option.some.inj hact)
    exact .inl fun call hcall => ownCall_of_mem (hfront.subset hcall)
  | other call =>
    rw [act] at hact
    split at hact
    · next hspares =>
      obtain ⟨rfl, -⟩ := Prod.mk.inj (Option.some.inj hact)
      by_cases hall : front = [call]
      · exact .inr ⟨call, rfl, hspares, hall⟩
      · rw [eq_nil_of_prefix_singleton hfront hall]
        exact .inl (List.forall_mem_nil _)
    · cases hact

/-- A name on the medium stays there. -/
theorem bound_of_act (hact : f.act C name fd action = some (calls, f')) {front : List DbCall}
    (hfront : front <+: calls) (h : f.volume.Bound name fd) : (f.volume.after front).Bound name fd := by
  rcases front_cases hact hfront with hown | ⟨call, -, hspares, rfl⟩
  · exact h.after fun call hcall => (hown call hcall).keepsNames
  · exact h.spared hspares

theorem bound_of_steps {f₀ : WalFile} {P : WalFile → WalAction → Prop}
    (h : Steps (step C name fd) P f₀ f) (h₀ : f₀.volume.Bound name fd) : f.volume.Bound name fd := by
  have hstep (f : WalFile) (action : WalAction) (f' : WalFile) (_ : P f action)
      (hstep : step C name fd action f = some f') (hf : f.volume.Bound name fd) :
      f'.volume.Bound name fd := by
    obtain ⟨⟨calls, f₁⟩, hact, rfl⟩ := Option.map_eq_some_iff.mp hstep
    exact bound_of_act hact (List.prefix_refl _) hf
  exact @Steps.invariant _ _ _ _ _ _ (fun f => f.volume.Bound name fd) hstep h h₀

/-- An action that is on the file, or on another one than this. -/
def Leaves (n : FileName) (i : Nat) (f : WalFile) : WalAction → Prop
  | .other call => f.volume.Spares n i call
  | _ => True

/-- A second file, and what holds of it, whatever the actions. -/
theorem second_of_act {n : FileName} {i : Nat} {Q : DbVolume → Prop}
    (hQ : ∀ v call, Volume.Spares v n i call → Q v → Q (v.run call)) (hne : fd ≠ i)
    (hact : f.act C name fd action = some (calls, f')) (hleaves : f.Leaves n i action)
    {front : List DbCall} (hfront : front <+: calls) (h : Q f.volume) : Q (f.volume.after front) := by
  rcases front_cases hact hfront with hown | ⟨call, rfl, -, rfl⟩
  · exact Volume.after_invariant (fun v call hcall => hQ v call ((hown call hcall).spares hne v)) h
  · exact hQ f.volume call hleaves h

theorem second_of_steps {n : FileName} {i : Nat} {Q : DbVolume → Prop}
    (hQ : ∀ v call, Volume.Spares v n i call → Q v → Q (v.run call)) (hne : fd ≠ i) {f₀ : WalFile}
    (h : Steps (step C name fd) (Leaves n i) f₀ f) (h₀ : Q f₀.volume) : Q f.volume := by
  have hstep (f : WalFile) (action : WalAction) (f' : WalFile) (hleaves : f.Leaves n i action)
      (hstep : step C name fd action f = some f') (hf : Q f.volume) : Q f'.volume := by
    obtain ⟨⟨calls, f₁⟩, hact, rfl⟩ := Option.map_eq_some_iff.mp hstep
    exact second_of_act hQ hne hact hleaves (List.prefix_refl _) hf
  exact @Steps.invariant _ _ _ _ _ _ (fun f => Q f.volume) hstep h h₀

/-- Between any two calls, a power failure leaves a log with all records in front of the last `Sync` that
returned `Ok`: the file has their bytes, and a front of the bytes of the records behind them; and records
that are whole in their blocks are read back in order, unless the file is left with a full last block,
where `ReadPhysicalRecord` runs off its end. -/
theorem acked_survive {v : DbVolume} (hnew : v.names name = none) (hname : ismanifest name = true)
    (hrun : Steps (step C name v.next) (fun _ _ => True) (opened v name) f)
    (hact : f.act C name v.next action = some (calls, f')) {front : List DbCall}
    (hfront : front <+: calls) {w : DbVolume} (hcrash : (f.volume.after front).Crash w)
    {acked : List Bytes} (hacked : acked ∈ f.acked) :
    ∃ p, w.read name = some p ∧ logBytes C acked <+: p ∧ p <+: logBytes C f'.records ∧
      (InBlocks 0 (stored f'.records) →
        p.length % kBlockSize = 0 ∧ Reader.readRecords C (.new ⟨p⟩ true 0) = none ∨
        p.length % kBlockSize ≠ 0 ∧ ∃ read, Reader.readRecords C (.new ⟨p⟩ true 0) = some read ∧
          stored acked <+: read ∧ read <+: stored f'.records) := by
  have hinv := inv_of_steps hrun (.opened C hnew)
  have hbound := bound_of_act hact hfront (hinv.bound hname (Option.isSome_of_mem hacked))
  obtain ⟨p, hread, hle, hp⟩ := hinv.crash_act hact hfront hacked hbound hcrash
  have hstored := (hinv.acked_front hacked).trans (ghosts_of_act hact).1
  exact ⟨p, hread, hle, hp, fun hblocks =>
    Reader.readRecords_of_prefix hblocks hp hstored hle⟩

/-- A record is appended behind a synced one. -/
theorem acked_survive_settled :
    ∃ f : WalFile, f.acked = some [[1, 2, 3]] ∧
      ∃ p, f.volume.settled.read (logFileName 3) = some p ∧
        logBytes .castagnoli [[1, 2, 3]] <+: p ∧ p <+: logBytes .castagnoli [[1, 2, 3], [4]] ∧
        (InBlocks 0 (stored [[1, 2, 3], [4]]) →
          p.length % kBlockSize = 0 ∧
            Reader.readRecords .castagnoli (.new ⟨p⟩ true 0) = none ∨
          p.length % kBlockSize ≠ 0 ∧
            ∃ read, Reader.readRecords .castagnoli (.new ⟨p⟩ true 0) = some read ∧
              stored [[1, 2, 3]] <+: read ∧ read <+: stored [[1, 2, 3], [4]]) := by
  let name := logFileName 3
  obtain ⟨calls, hfirst⟩ := @act_appendrecord .castagnoli (opened {} name) name 0 [1, 2, 3] rfl
  let f₁ : WalFile :=
    ⟨(opened {} name).volume.after calls, .written .castagnoli [[1, 2, 3]], [[1, 2, 3]], none⟩
  obtain ⟨f₂, hsync, hacked, hrecords⟩ : ∃ f₂, step .castagnoli name 0 (.sync {}) f₁ = some f₂ ∧
      f₂.acked = some [[1, 2, 3]] ∧ f₂.records = [[1, 2, 3]] := ⟨_, rfl, rfl, rfl⟩
  have hrun : Steps (step .castagnoli name 0) (fun _ _ => True) (opened {} name) f₂ :=
    .head trivial (step_of_act hfirst) (.head trivial hsync (.refl _))
  have hopened : Inv .castagnoli name 0 (opened {} name) := .opened (v := {}) .castagnoli rfl
  have hwriter := (inv_of_steps hrun hopened).writer
  obtain ⟨calls', hlast⟩ := act_appendrecord name 0 [4] hwriter
  rw [hrecords] at hlast
  exact ⟨f₂, hacked, acked_survive (v := {}) rfl (ismanifest_makeFileName 3 _) hrun hlast List.nil_prefix
    (Volume.crash_settled _) hacked⟩

end WalFile

end Yubindb
