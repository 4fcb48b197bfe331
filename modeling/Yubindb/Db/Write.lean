import Yubindb.Db.LogFraming
import Yubindb.Db.VersionSet
import Yubindb.Db.WriteBatch

/-!
# Writing

`DBImpl::Write`, `DBImpl::MakeRoomForwrite` and `DBImpl::BuildBatchGroup` in `src/db/db.h`,
`src/db/db.cpp`, for the writer at the front of the queue. Batches are not null.
-/

namespace Yubindb

/-- `MaxBatchSize`. -/
def MaxBatchSize : Nat := 1024

/-- `config::kL0_SlowdownWrites`, `config::kL0_StopWrites`. -/
def kL0_SlowdownWrites : Nat := 8
def kL0_StopWrites : Nat := 12

/-! ## The batch group -/

/-- `DBImpl::Writer`, while it is in the queue. -/
structure Writer where
  sync : Bool
  batch : WriteBatch
  deriving DecidableEq, Repr

/-- The loop of `BuildBatchGroup`; `size` is never raised. -/
def mergeFollowers (sync : Bool) (size : Nat) (fntbatch : WriteBatch) : List Writer → WriteBatch
  | [] => fntbatch
  | w :: followers =>
    if w.sync ≠ sync then fntbatch
    else if size + w.batch.byteSize > MaxBatchSize then fntbatch
    else mergeFollowers sync size (fntbatch.append w.batch) followers

/-- `BuildBatchGroup`: the batch of the first writer, with those of the followers that it takes. The
assignments to `last_writer` change the parameter only. -/
def buildBatchGroup (fnt : Writer) (followers : List Writer) : WriteBatch :=
  mergeFollowers fnt.sync fnt.batch.byteSize fnt.batch followers

/-! ## Making room -/

/-- The fields of `DBImpl` that rotation and flushes change. -/
structure DBImpl where
  versions : VersionSet
  bgError : State := .ok
  mem : Memtable := {}
  imm : Option Memtable := none
  logfilenum : Nat := 0

/-- How a turn of the loop of `MakeRoomForwrite` ends. -/
inductive RoomTurn
  /-- `break`, with the state in `s`. -/
  | leave (s : State)
  /-- The sleep; the second `unlock` behind it throws. -/
  | delay
  | wait
  /-- The next turn follows; the log and the memtable are new. -/
  | rotated
  /-- An assertion fails. -/
  | abort
  deriving DecidableEq, Repr

namespace DBImpl

/-- One turn of the loop of `MakeRoomForwrite(false)`, that of a batch which is not null, where
`allow_delay` is still true. `create` gives the state of `NewWritableFile`, by the number of the log. -/
def makeRoomTurn (writeBufferSize : Nat) (create : Nat → State) (db : DBImpl) : RoomTurn × DBImpl :=
  if db.bgError ≠ .ok then (.leave db.bgError, db)
  else if db.versions.numLevelFiles 0 ≥ kL0_SlowdownWrites then (.delay, db)
  else if db.mem.approximateMemoryUsage ≤ writeBufferSize then (.leave .ok, db)
  else if db.versions.numLevelFiles 0 ≥ kL0_StopWrites then (.wait, db)
  else if db.imm.isSome then (.wait, db)
  else
    let (newLogNumber, versions) := db.versions.newFileNumber
    -- `LogFileName` asserts that the number is not 0
    if newLogNumber = 0 then (.abort, db)
    else if create newLogNumber ≠ .ok then (.leave (create newLogNumber), { db with versions })
    else (.rotated, { db with versions, logfilenum := newLogNumber, imm := some db.mem, mem := {} })

end DBImpl

/-! ## A log file whose operations may fail -/

/-- The operations of the log file. -/
inductive FileOp
  | append (ptr : Bytes)
  | flush
  | sync
  deriving DecidableEq, Repr

/-- A log file by its history: the operations and the states that they returned. `outcomes` are the
states that the next ones return, and behind them every operation succeeds. -/
structure LogFile where
  history : List (FileOp × State) := []
  outcomes : List State := []
  deriving DecidableEq, Repr

namespace LogFile

def exec (f : LogFile) (op : FileOp) : State × LogFile :=
  (f.outcomes.headD .ok, ⟨f.history ++ [(op, f.outcomes.headD .ok)], f.outcomes.tail⟩)

instance : AppendFile LogFile where
  append f ptr := f.exec (.append ptr)
  flush f := f.exec .flush
  sync f := f.exec .sync

def runAll (f : LogFile) (ops : List FileOp) : LogFile := ops.foldl (fun f op => (f.exec op).2) f

/-- The next `n` operations succeed. -/
def Accepts (f : LogFile) (n : Nat) : Prop := ∀ s ∈ f.outcomes.take n, s = .ok

instance (f : LogFile) (n : Nat) : Decidable (f.Accepts n) :=
  inferInstanceAs (Decidable (∀ s ∈ f.outcomes.take n, s = .ok))

end LogFile

/-! ## `Write` -/

/-- What a writer at the front of the queue works on. -/
structure WriteState where
  db : DBImpl
  logwrite : WalWriter LogFile

/-- What the background thread has left when it wakes the writer. -/
structure Background where
  versions : VersionSet
  bgError : State
  imm : Option Memtable

/-- How a call ends. -/
inductive Outcome
  | returned (s : State)
  | threw
  deriving DecidableEq, Repr

/-- `last_sequence += updates->Count()`, in a `uint64_t`. -/
def addCount (lastSequence : Nat) (count : Int) : Nat :=
  (((lastSequence : Int) + count) % 2 ^ 64).toNat

namespace WriteState

/-- `MakeRoomForwrite(false)`: it returns `Ok` behind every `break`. Nothing when it still waits
behind the given wake-ups or an assertion fails. -/
def makeRoomForwrite (writeBufferSize : Nat) (create : Nat → State) (wakes : List Background)
    (w : WriteState) : Option (Outcome × WriteState) :=
  match w.db.makeRoomTurn writeBufferSize create with
  | (.leave _, db) => some (.returned .ok, { w with db })
  | (.delay, db) => some (.threw, { w with db })
  | (.abort, _) => none
  | (.rotated, db) =>
    let w : WriteState := { db, logwrite := .new { outcomes := w.logwrite.file.outcomes } }
    w |>.makeRoomForwrite writeBufferSize create wakes
  | (.wait, db) =>
    match wakes with
    | [] => none
    | b :: wakes =>
      let w : WriteState :=
        { w with db := { db with versions := b.versions, bgError := b.bgError, imm := b.imm } }
      w |>.makeRoomForwrite writeBufferSize create wakes
partial_fixpoint

/-- The part of `Write` without the mutex: the log, `Sync` and the memtable. -/
def commit (C : Crc32c) (sync : Bool) (updates : WriteBatch) (w : WriteState) :
    Option (State × WriteState) := do
  let (s, logwrite) ← w.logwrite.appendrecord C updates.contents
  let (s, logwrite) :=
    if s = .ok ∧ sync then
      let (s, file) := AppendFile.sync logwrite.file
      (s, { logwrite with file })
    else (s, logwrite)
  let (s, mem) := if s = .ok then updates.insertInto w.db.mem else (s, w.db.mem)
  return (s, { db := { w.db with mem }, logwrite })

/-- The batch that `Write` logs and inserts. -/
def updates (w : WriteState) (fnt : Writer) (followers : List Writer) : WriteBatch :=
  (buildBatchGroup fnt followers).setSequence (w.db.versions.lastSequence + 1)

/-- `Write`, for the writer `fnt` at the front of the queue with `followers` behind it. -/
def write (C : Crc32c) (writeBufferSize : Nat) (create : Nat → State) (wakes : List Background)
    (fnt : Writer) (followers : List Writer) (w : WriteState) : Option (Outcome × WriteState) := do
  let (o, w) ← w.makeRoomForwrite writeBufferSize create wakes
  match o with
  | .threw => return (.threw, w)
  | .returned statue =>
    if statue = .ok then
      let updates := w.updates fnt followers
      let lastSequence := addCount w.db.versions.lastSequence updates.count
      let (_, w) ← w.commit C fnt.sync updates
      -- the state of `commit` is lost
      return (.returned .ok, { w with db := { w.db with
        versions := w.db.versions.setLastSequence lastSequence } })
    else return (.returned .ok, w)

end WriteState

/-! ## Histories of the log file -/

namespace LogFile
variable {f : LogFile} {ops ops' : List FileOp}

theorem runAll_cons (f : LogFile) (op : FileOp) (ops : List FileOp) :
    f.runAll (op :: ops) = (f.exec op).2.runAll ops := rfl

theorem runAll_append (f : LogFile) (ops ops' : List FileOp) :
    f.runAll (ops ++ ops') = (f.runAll ops).runAll ops' := List.foldl_append

theorem fst_history_runAll (f : LogFile) (ops : List FileOp) :
    (f.runAll ops).history.map Prod.fst = f.history.map Prod.fst ++ ops := by
  induction ops generalizing f with
  | nil => exact (List.append_nil _).symm
  | cons op ops ih =>
    rw [runAll_cons, ih, exec, List.map_append, List.append_assoc]
    rfl

theorem prefix_history_runAll (f : LogFile) (ops : List FileOp) :
    f.history <+: (f.runAll ops).history := by
  induction ops generalizing f with
  | nil => exact List.prefix_refl _
  | cons op ops ih => exact (List.prefix_append _ _).trans (ih (f.exec op).2)

theorem accepts_succ (op : FileOp) {n : Nat} :
    f.Accepts (n + 1) ↔ f.outcomes.headD .ok = .ok ∧ (f.exec op).2.Accepts n := by
  obtain ⟨history, outcomes⟩ := f
  cases outcomes with
  | nil => simp [Accepts, exec]
  | cons s outcomes => simp [Accepts, exec]

/-- All operations succeed when the file accepts their number. -/
theorem history_runAll_iff :
    (f.runAll ops).history = f.history ++ ops.map (·, .ok) ↔ f.Accepts ops.length := by
  induction ops generalizing f with
  | nil => simp [runAll, Accepts]
  | cons op ops ih =>
    rw [runAll_cons, List.length_cons, accepts_succ op]
    by_cases hs : f.outcomes.headD .ok = .ok
    · have hexec : (f.exec op).2.history = f.history ++ [(op, .ok)] := by
        rw [exec, hs]
      rw [and_iff_right hs, ← ih, hexec, List.append_assoc]
      rfl
    · refine iff_of_false (fun h => hs ?_) (fun h => hs h.1)
      obtain ⟨l, hl⟩ := (f.exec op).2.prefix_history_runAll ops
      rw [← hl, exec, List.append_assoc] at h
      have hcons := List.append_cancel_left h
      exact (Prod.mk.inj (List.cons.inj hcons).1).2

/-- The operations that one by one are accepted are accepted together. -/
theorem accepts_add {m : Nat} :
    f.Accepts (ops.length + m) ↔ f.Accepts ops.length ∧ (f.runAll ops).Accepts m := by
  induction ops generalizing f with
  | nil =>
    rw [List.length_nil, Nat.zero_add, and_iff_right (by simp [Accepts])]
    rfl
  | cons op ops ih =>
    rw [List.length_cons, Nat.add_right_comm, accepts_succ op, accepts_succ op, ih,
      runAll_cons, and_assoc]

/-- `f'` is the file behind operations of which one did not succeed. -/
def Fails (f f' : LogFile) : Prop := ∃ ops, f' = f.runAll ops ∧ ¬ f.Accepts ops.length

theorem Fails.behind {f' : LogFile} (h : (f.runAll ops).Fails f') : f.Fails f' := by
  obtain ⟨ops', rfl, hno⟩ := h
  refine ⟨ops ++ ops', (runAll_append f ops ops').symm, ?_⟩
  rw [List.length_append, accepts_add]
  exact fun h => hno h.2

theorem Fails.goesOn {f' : LogFile} (h : f.Fails f') (ops : List FileOp) :
    f.Fails (f'.runAll ops) := by
  obtain ⟨ops', rfl, hno⟩ := h
  refine ⟨ops' ++ ops, (runAll_append f ops' ops).symm, ?_⟩
  rw [List.length_append, accepts_add]
  exact fun h => hno h.1

/-- Only the operations that were run can be in the history. -/
theorem history_runAll_eq (h : (f.runAll ops').history = f.history ++ ops.map (·, .ok)) :
    ops' = ops := by
  have hfst := congrArg (List.map Prod.fst) h
  rw [fst_history_runAll, List.map_append, List.map_map] at hfst
  have := List.append_cancel_left hfst
  rw [this]
  exact List.map_id ops

theorem Fails.history_ne {f' : LogFile} (h : f.Fails f') (ops : List FileOp) :
    f'.history ≠ f.history ++ ops.map (·, .ok) := by
  obtain ⟨ops', rfl, hno⟩ := h
  intro heq
  obtain rfl := history_runAll_eq heq
  exact hno (history_runAll_iff.mp heq)

end LogFile

/-! ## Appending to it -/

/-- What `Appendrecord` does with the file for a physical record. -/
def PhysRecord.ops (C : Crc32c) (e : PhysRecord) : List FileOp :=
  (if 0 < e.trailer then [.append (List.replicate e.trailer 0)] else []) ++
    [.append (WalWriter.header C e.type e.payload), .append e.payload, .flush]

/-- What it does for the bytes `ptr`. -/
def fragmentOps (C : Crc32c) (off : Nat) (ptr : Bytes) : List FileOp :=
  (fragments off ptr).flatMap (PhysRecord.ops C)

/-- The bytes that are flushed as soon as they are appended: the payloads. -/
def flushedPayload : List FileOp → Bytes
  | .append ptr :: .flush :: ops => ptr ++ flushedPayload ops
  | _ :: ops => flushedPayload ops
  | [] => []

theorem flushedPayload_ops (C : Crc32c) (e : PhysRecord) (ops : List FileOp) :
    flushedPayload (e.ops C ++ ops) = e.payload ++ flushedPayload ops := by
  rw [PhysRecord.ops]
  split <;> simp [flushedPayload]

theorem flushedPayload_fragmentOps (C : Crc32c) (off : Nat) (ptr : Bytes) (ops : List FileOp) :
    flushedPayload (fragmentOps C off ptr ++ ops) = ptr ++ flushedPayload ops := by
  have hes (es : List PhysRecord) : flushedPayload (es.flatMap (PhysRecord.ops C) ++ ops) =
      es.flatMap PhysRecord.payload ++ flushedPayload ops := by
    induction es with
    | nil => rfl
    | cons e es ih =>
      rw [List.flatMap_cons, List.flatMap_cons, List.append_assoc, flushedPayload_ops, ih,
        List.append_assoc]
  rw [fragmentOps, hes, fragments_payload]

namespace WalWriter
variable {C : Crc32c} {w w' : WalWriter LogFile} {ptr : Bytes} {s s' : State}

/-- The physical record of one round. -/
def roundRecord (w : WalWriter LogFile) (ptr : Bytes) : PhysRecord :=
  ⟨padding w.blockOffset, headerStart w.blockOffset,
    fragmentType (available w.blockOffset) ptr.length, ptr.take (available w.blockOffset)⟩

theorem padBlock_runAll (w : WalWriter LogFile) :
    w.padBlock = { w with
      file := w.file.runAll (if 0 < padding w.blockOffset then
        [.append (List.replicate (padding w.blockOffset) 0)] else [])
      blockOffset := headerStart w.blockOffset } := by
  rw [padBlock, padding, headerStart]
  by_cases hleft : kBlockSize - w.blockOffset < kHeaderSize
  · rw [if_pos hleft, if_pos hleft, if_pos hleft]
    by_cases hzero : kBlockSize - w.blockOffset > 0
    · rw [if_pos hzero, if_pos hzero]
      rfl
    · rw [if_neg hzero, if_neg hzero]
      rfl
  · rw [if_neg hleft, if_neg hleft, if_neg hleft, if_neg (Nat.lt_irrefl _)]
    rfl

/-- `Flushphyrecord` runs its operations until one fails; the state of `Flush` is lost. -/
theorem flushphyrecord_cases (w : WalWriter LogFile) (type : RecordType) (buf_ : Bytes) :
    if w.file.Accepts 3 then
      w.flushphyrecord C type buf_ = (.ok, { w with
        file := w.file.runAll [.append (header C type buf_), .append buf_, .flush]
        blockOffset := w.blockOffset + kHeaderSize + buf_.length })
    else w.file.Fails (w.flushphyrecord C type buf_).2.file := by
  let op₁ : FileOp := .append (header C type buf_)
  let op₂ : FileOp := .append buf_
  let s₁ := w.file.outcomes.headD .ok
  let s₂ := (w.file.exec op₁).2.outcomes.headD .ok
  have heq : w.flushphyrecord C type buf_ =
      if s₁ ≠ .ok then (s₁, { w with file := w.file.runAll [op₁] })
      else if s₂ ≠ .ok then (s₂, { w with file := w.file.runAll [op₁, op₂] })
      else (s₂, { w with
        file := w.file.runAll [op₁, op₂, .flush]
        blockOffset := w.blockOffset + kHeaderSize + buf_.length }) := rfl
  by_cases h₁ : s₁ = .ok
  · by_cases h₂ : s₂ = .ok
    · rw [heq, if_neg (not_not.mpr h₁), if_neg (not_not.mpr h₂), h₂]
      split
      · rfl
      · next hno => exact ⟨_, rfl, hno⟩
    · rw [if_neg fun h => h₂ (LogFile.accepts_succ op₂ |>.mp (LogFile.accepts_succ op₁ |>.mp h).2).1,
        heq, if_neg (not_not.mpr h₁), if_pos h₂]
      exact ⟨_, rfl, fun h => h₂ (LogFile.accepts_succ op₂ |>.mp
        (LogFile.accepts_succ op₁ |>.mp h).2).1⟩
  · rw [if_neg fun h => h₁ (LogFile.accepts_succ op₁ |>.mp h).1, heq, if_pos h₁]
    exact ⟨_, rfl, fun h => h₁ (LogFile.accepts_succ op₁ |>.mp h).1⟩

theorem flushphyrecord_runAll (w : WalWriter LogFile) (type : RecordType) (buf_ : Bytes) :
    ∃ ops, (w.flushphyrecord C type buf_).2.file = w.file.runAll ops := by
  have hcases := @flushphyrecord_cases C w type buf_
  split at hcases
  · exact ⟨_, by rw [hcases]⟩
  · obtain ⟨ops, hfile, -⟩ := hcases
    exact ⟨ops, hfile⟩

/-- One round runs the operations of its record as long as they succeed. -/
theorem appendRound_cases (w : WalWriter LogFile) (ptr : Bytes) :
    if w.file.Accepts ((w.roundRecord ptr).ops C).length then
      w.appendRound C ptr = (.ok, ⟨w.file.runAll ((w.roundRecord ptr).ops C),
        (w.roundRecord ptr).stop, w.emitted ++ [w.roundRecord ptr]⟩)
    else w.file.Fails (w.appendRound C ptr).2.file := by
  let pad : List FileOp := if 0 < padding w.blockOffset then
    [.append (List.replicate (padding w.blockOffset) 0)] else []
  have htake : ptr.take (min ptr.length (available w.blockOffset)) =
      ptr.take (available w.blockOffset) := by
    rw [List.take_eq_take_iff]
    omega
  have hops : (w.roundRecord ptr).ops C = pad ++
      [.append (header C (w.roundRecord ptr).type (w.roundRecord ptr).payload),
        .append (w.roundRecord ptr).payload, .flush] := rfl
  have hround : w.appendRound C ptr =
      let r := w.padBlock.flushphyrecord C (w.roundRecord ptr).type (w.roundRecord ptr).payload
      (r.1, { r.2 with emitted := w.emitted ++ [w.roundRecord ptr] }) := by
    rw [appendRound, padBlock_runAll, roundRecord, ← htake]
    rfl
  have hcases := @flushphyrecord_cases C w.padBlock (w.roundRecord ptr).type
    (w.roundRecord ptr).payload
  rw [padBlock_runAll] at hcases hround
  have hiff : w.file.Accepts ((w.roundRecord ptr).ops C).length ↔
      w.file.Accepts pad.length ∧ (w.file.runAll pad).Accepts 3 := by
    rw [hops, List.length_append]
    exact LogFile.accepts_add
  by_cases hpad : w.file.Accepts pad.length
  · by_cases hflush : (w.file.runAll pad).Accepts 3
    · rw [if_pos hflush] at hcases
      rw [if_pos (hiff.mpr ⟨hpad, hflush⟩), hround, hcases, hops, LogFile.runAll_append]
      rfl
    · rw [if_neg hflush] at hcases
      rw [if_neg fun h => hflush (hiff.mp h).2, hround]
      exact LogFile.Fails.behind hcases
  · -- a padding that fails is followed by the rest all the same
    obtain ⟨ops, hfile⟩ := @flushphyrecord_runAll C w.padBlock (w.roundRecord ptr).type
      (w.roundRecord ptr).payload
    rw [padBlock_runAll] at hfile
    have hfails : w.file.Fails (w.file.runAll pad) := ⟨pad, rfl, hpad⟩
    rw [if_neg fun h => hpad (hiff.mp h).1, hround, hfile]
    exact hfails.goesOn ops

/-- Whatever happens, `Appendrecord` runs some operations. -/
theorem appendLoop_runAll (h : appendLoop C w ptr s = some (s', w')) :
    ∃ ops, w'.file = w.file.runAll ops := by
  refine appendLoop.partial_correctness C (fun w _ _ r => ∃ ops, r.2.file = w.file.runAll ops)
    (fun loop ih w ptr s r h => ?_) w ptr s _ h
  split at h
  · cases h
    exact ⟨[], rfl⟩
  · obtain ⟨ops', hops'⟩ := ih _ _ _ _ h
    have hround := @appendRound_cases C w ptr
    have hrun : ∃ ops, (w.appendRound C ptr).2.file = w.file.runAll ops := by
      split at hround
      · exact ⟨_, by rw [hround]⟩
      · obtain ⟨ops, hfile, -⟩ := hround
        exact ⟨ops, hfile⟩
    obtain ⟨ops, hops⟩ := hrun
    exact ⟨ops ++ ops', by rw [LogFile.runAll_append, ← hops, hops']⟩

/-- `Appendrecord` runs the operations of its fragments, and returns `Ok`, if they all succeed;
otherwise it has run one that did not. -/
theorem appendLoop_cases (h : appendLoop C w ptr s = some (s', w')) :
    if w.file.Accepts (fragmentOps C w.blockOffset ptr).length then
      w'.file = w.file.runAll (fragmentOps C w.blockOffset ptr) ∧ (s = .ok → s' = .ok)
    else w.file.Fails w'.file := by
  obtain ⟨file, off, emitted⟩ := w
  induction off, ptr using fragments.induct generalizing file emitted s with
  | case1 off =>
    rw [appendLoop, if_pos rfl] at h
    cases h
    rw [fragmentOps, fragments_nil, if_pos (by simp [LogFile.Accepts])]
    exact ⟨rfl, id⟩
  | case2 off ptr hptr ih =>
    rw [appendLoop, if_neg hptr] at h
    dsimp only at h
    let w : WalWriter LogFile := ⟨file, off, emitted⟩
    have hround := @appendRound_cases C w ptr
    have hstop : (w.roundRecord ptr).stop =
        headerStart off + kHeaderSize + min ptr.length (available off) := by
      rw [PhysRecord.stop, roundRecord, length_take_available]
    have hops : fragmentOps C off ptr = (w.roundRecord ptr).ops C ++
        fragmentOps C (w.roundRecord ptr).stop (ptr.drop (available off)) := by
      rw [fragmentOps, fragments_of_ne hptr, List.flatMap_cons, ← hstop]
      rfl
    have hdrop : ptr.drop (w.roundSize ptr) = ptr.drop (available off) := by
      rw [roundSize, padBlock_runAll]
      show ptr.drop (min ptr.length (available off)) = _
      rcases Nat.le_total ptr.length (available off) with h | h
      · rw [Nat.min_eq_left h, List.drop_length, List.drop_eq_nil_of_le h]
      · rw [Nat.min_eq_right h]
    have hiff : file.Accepts (fragmentOps C off ptr).length ↔
        file.Accepts ((w.roundRecord ptr).ops C).length ∧
          (file.runAll ((w.roundRecord ptr).ops C)).Accepts
            (fragmentOps C (w.roundRecord ptr).stop (ptr.drop (available off))).length := by
      rw [hops, List.length_append]
      exact LogFile.accepts_add
    rw [show (⟨file, off, emitted⟩ : WalWriter LogFile) = w from rfl, hdrop] at h
    by_cases hfirst : file.Accepts ((w.roundRecord ptr).ops C).length
    · rw [if_pos hfirst] at hround
      rw [hround] at h
      have hrest := ih (s := .ok) (file.runAll ((w.roundRecord ptr).ops C))
        (emitted ++ [w.roundRecord ptr]) (by rw [← hstop]; exact h)
      rw [← hstop] at hrest
      by_cases hlater : (file.runAll ((w.roundRecord ptr).ops C)).Accepts
          (fragmentOps C (w.roundRecord ptr).stop (ptr.drop (available off))).length
      · rw [if_pos hlater] at hrest
        rw [if_pos (hiff.mpr ⟨hfirst, hlater⟩), hops, LogFile.runAll_append]
        exact ⟨hrest.1, fun _ => hrest.2 rfl⟩
      · rw [if_neg hlater] at hrest
        rw [if_neg fun h => hlater (hiff.mp h).2]
        exact LogFile.Fails.behind hrest
    · rw [if_neg hfirst] at hround
      obtain ⟨ops, hfile⟩ := appendLoop_runAll h
      rw [if_neg fun h => hfirst (hiff.mp h).1, hfile]
      exact hround.goesOn ops

end WalWriter

/-! ## What an acknowledged write has done -/

namespace WriteBatch

/-- The operations decode, and there are as many of them as the batch says. -/
structure WellFormed (b : WriteBatch) : Prop where
  readOps : (readOps (b.mate.drop Headsize)).2 = .ok
  count : (b.ops.length : Int) = b.count

theorem insertInto_ok_iff {b : WriteBatch} {m m' : Memtable} :
    b.insertInto m = (.ok, m') ↔ b.WellFormed ∧ m' = b.entries.foldl Memtable.add m := by
  rw [insertInto]
  by_cases hs : (WriteBatch.readOps (b.mate.drop Headsize)).2 = .ok
  · rw [if_neg (not_not.mpr hs)]
    by_cases hcount : (b.ops.length : Int) = b.count
    · rw [if_neg (not_not.mpr hcount), Prod.mk.injEq, and_iff_right rfl,
        and_iff_right (WellFormed.mk hs hcount), eq_comm]
    · rw [if_pos hcount]
      exact iff_of_false (fun h => by cases h) (fun h => hcount h.1.count)
  · rw [if_pos hs]
    exact iff_of_false (fun h => hs (congrArg Prod.fst h)) (fun h => hs h.1.readOps)

/-- The sequence number is no part of the operations. -/
theorem wellFormed_setSequence {b : WriteBatch} {seq : Nat} :
    (b.setSequence seq).WellFormed ↔ b.WellFormed := by
  have hdrop : (b.setSequence seq).mate.drop 8 = b.mate.drop 8 :=
    List.drop_left' (length_encodeFixed64 seq)
  have hbody : (b.setSequence seq).mate.drop Headsize = b.mate.drop Headsize := by
    rw [show Headsize = 8 + 4 from rfl, ← List.drop_drop, hdrop, List.drop_drop]
  have hops : (b.setSequence seq).ops = b.ops := by
    rw [ops, hbody, ops]
  have hcount : (b.setSequence seq).count = b.count :=
    congrArg (fun bs => (decodeFixed32 bs : Int).bmod (2 ^ 32)) hdrop
  exact ⟨fun h => ⟨hbody ▸ h.readOps, by rw [← hops, ← hcount]; exact h.count⟩,
    fun h => ⟨hbody ▸ h.readOps, by rw [hops, hcount]; exact h.count⟩⟩

end WriteBatch

/-- The operations of a durable write: the fragments of the record, and `Sync` when it is asked for. -/
def recordOps (C : Crc32c) (off : Nat) (record : Bytes) (sync : Bool) : List FileOp :=
  fragmentOps C off record ++ if sync then [.sync] else []

namespace WriteState
variable {C : Crc32c} {limit : Nat} {create : Nat → State} {wakes : List Background}
  {fnt : Writer} {followers : List Writer} {w w' : WriteState} {sync : Bool}
  {b : WriteBatch} {s : State} {o : Outcome}

/-- From `w` to `w'` the whole record has been appended to the log, synced when that is asked for,
and inserted into the memtable. -/
structure Durable (C : Crc32c) (w w' : WriteState) (b : WriteBatch) (sync : Bool) : Prop where
  logged : w'.logwrite.file.history = w.logwrite.file.history ++
    (recordOps C w.logwrite.blockOffset b.contents sync).map (·, .ok)
  inserted : b.insertInto w.db.mem = (.ok, w'.db.mem)

/-- The steps of `commit`: the append, `Sync` behind a good append, and the insertion behind both. -/
theorem commit_eq (h : w.commit C sync b = some (s, w')) :
    ∃ s₁ logwrite, w.logwrite.appendrecord C b.contents = some (s₁, logwrite) ∧
      w'.logwrite.file = logwrite.file.runAll (if s₁ = .ok ∧ sync then [.sync] else []) ∧
      ((if s₁ = .ok ∧ sync then logwrite.file.outcomes.headD .ok else s₁) = .ok →
        w'.db.mem = (b.insertInto w.db.mem).2) := by
  obtain ⟨⟨s₁, logwrite⟩, happend, h⟩ := Option.bind_eq_some_iff.mp h
  refine ⟨s₁, logwrite, happend, ?_⟩
  dsimp only at h
  by_cases hsync : s₁ = .ok ∧ sync
  · rw [if_pos hsync] at h
    cases h
    rw [if_pos hsync, if_pos hsync]
    refine ⟨rfl, fun hs => ?_⟩
    exact congrArg Prod.snd (if_pos hs)
  · rw [if_neg hsync] at h
    cases h
    rw [if_neg hsync, if_neg hsync]
    refine ⟨rfl, fun hs => ?_⟩
    exact congrArg Prod.snd (if_pos hs)

theorem take_mod_eq_iff {str : Bytes} :
    str.take (str.length % 2 ^ 32) = str ↔ str.length < 2 ^ 32 := by
  rw [List.take_eq_self_iff]
  constructor
  · intro h
    exact h.trans_lt (Nat.mod_lt _ (by decide))
  · intro h
    rw [Nat.mod_eq_of_lt h]

theorem recordOps_inj {off : Nat} {ptr str : Bytes}
    (h : recordOps C off ptr sync = recordOps C off str sync) : ptr = str := by
  have hpayload := congrArg flushedPayload h
  rw [recordOps, recordOps, flushedPayload_fragmentOps, flushedPayload_fragmentOps] at hpayload
  exact List.append_cancel_right hpayload

theorem commit_durable_iff (h : w.commit C sync b = some (s, w')) :
    Durable C w w' b sync ↔ b.contents.length < 2 ^ 32 ∧ b.WellFormed ∧
      w.logwrite.file.Accepts (recordOps C w.logwrite.blockOffset b.contents sync).length := by
  obtain ⟨s₁, logwrite, happend, hfile, hmem⟩ := commit_eq h
  have hcases := WalWriter.appendLoop_cases happend
  generalize hptr : b.contents.take (b.contents.length % 2 ^ 32) = ptr at hcases
  by_cases hacc : w.logwrite.file.Accepts (fragmentOps C w.logwrite.blockOffset ptr).length
  · rw [if_pos hacc] at hcases
    obtain ⟨hlog, hok⟩ := hcases
    cases hok rfl
    have hrun : w'.logwrite.file =
        w.logwrite.file.runAll (recordOps C w.logwrite.blockOffset ptr sync) := by
      rw [hfile, hlog, recordOps, LogFile.runAll_append]
      simp only [true_and]
    constructor
    · rintro ⟨hlogged, hinserted⟩
      rw [hrun] at hlogged
      have hops := LogFile.history_runAll_eq hlogged
      rw [hops] at hlogged
      exact ⟨take_mod_eq_iff.mp (hptr.trans (recordOps_inj hops)), (WriteBatch.insertInto_ok_iff.mp hinserted).1,
        LogFile.history_runAll_iff.mp hlogged⟩
    · rintro ⟨hlen, hwell, haccept⟩
      obtain rfl : b.contents = ptr := (take_mod_eq_iff.mpr hlen).symm.trans hptr
      refine ⟨?_, ?_⟩
      · rw [hrun]
        exact LogFile.history_runAll_iff.mpr haccept
      · refine WriteBatch.insertInto_ok_iff.mpr ⟨hwell, ?_⟩
        rw [hmem, (WriteBatch.insertInto_ok_iff.mpr ⟨hwell, rfl⟩)]
        split
        · next hsync =>
          rw [recordOps, if_pos hsync.2, List.length_append, LogFile.accepts_add, ← hlog] at haccept
          exact (LogFile.accepts_succ .sync |>.mp haccept.2).1
        · rfl
  · rw [if_neg hacc] at hcases
    refine iff_of_false (fun hd => ?_) (fun hcond => ?_)
    · have hlogged := hd.logged
      rw [hfile] at hlogged
      exact (hcases.goesOn _).history_ne _ hlogged
    · obtain ⟨hlen, -, haccept⟩ := hcond
      obtain rfl : b.contents = ptr := (take_mod_eq_iff.mpr hlen).symm.trans hptr
      rw [recordOps, List.length_append, LogFile.accepts_add] at haccept
      exact hacc haccept.1

/-- The numbers of the version set do not matter. -/
theorem Durable.setVersions (w w' : WriteState) (b : WriteBatch) (sync : Bool)
    (versions : VersionSet) :
    Durable C w { w' with db := { w'.db with versions } } b sync ↔ Durable C w w' b sync :=
  ⟨fun h => ⟨h.logged, h.inserted⟩, fun h => ⟨h.logged, h.inserted⟩⟩

theorem makeRoomForwrite_ok {s : State}
    (h : w.makeRoomForwrite limit create wakes = some (.returned s, w')) : s = .ok := by
  refine makeRoomForwrite.partial_correctness limit create
    (fun _ _ r => ∀ s, r.1 = .returned s → s = .ok) (fun room ih wakes w r h => ?_)
    wakes w _ h s rfl
  split at h
  · cases h
    rintro s hs
    cases hs
    rfl
  · cases h
    rintro s hs
    cases hs
  · cases h
  · exact ih _ _ _ h
  · split at h
    · cases h
    · exact ih _ _ _ h

/-- The call ends as it should: it returns a state, and `Ok` only for a durable write of its batch
group, on the log that is in use behind `MakeRoomForwrite`. -/
def Reports (C : Crc32c) (limit : Nat) (create : Nat → State) (wakes : List Background)
    (fnt : Writer) (followers : List Writer) (w w' : WriteState) : Outcome → Prop
  | .returned s => s = .ok →
    ∃ ready, w.makeRoomForwrite limit create wakes = some (.returned .ok, ready) ∧
      Durable C ready w' (ready.updates fnt followers) fnt.sync
  | .threw => False

/-- Behind `MakeRoomForwrite`, `Write` returns `Ok` however its steps end. -/
theorem write_durable_iff {ready : WriteState}
    (h : w.write C limit create wakes fnt followers = some (o, w'))
    (hroom : w.makeRoomForwrite limit create wakes = some (.returned .ok, ready)) :
    o = .returned .ok ∧ (Durable C ready w' (ready.updates fnt followers) fnt.sync ↔
      (ready.updates fnt followers).contents.length < 2 ^ 32 ∧
        (buildBatchGroup fnt followers).WellFormed ∧
        ready.logwrite.file.Accepts (recordOps C ready.logwrite.blockOffset
          (ready.updates fnt followers).contents fnt.sync).length) := by
  rw [write, hroom] at h
  dsimp only [Option.bind_eq_bind, Option.bind_some] at h
  rw [if_pos rfl] at h
  obtain ⟨⟨s, done⟩, hcommit, h⟩ := Option.bind_eq_some_iff.mp h
  have hdurable := commit_durable_iff hcommit
  rw [updates, WriteBatch.wellFormed_setSequence, ← updates] at hdurable
  dsimp only at h
  generalize addCount _ _ = lastSequence at h
  cases h
  exact ⟨rfl, (Durable.setVersions _ _ _ _ _).trans hdurable⟩

/-- `Write` reports what it has done for exactly the outcomes in which nothing fails:
`MakeRoomForwrite` does not throw, the record has a length that fits and decodes, and the log file
accepts all of its operations. -/
theorem write_reports_iff (h : w.write C limit create wakes fnt followers = some (o, w')) :
    Reports C limit create wakes fnt followers w w' o ↔
      ∃ ready, w.makeRoomForwrite limit create wakes = some (.returned .ok, ready) ∧
        (ready.updates fnt followers).contents.length < 2 ^ 32 ∧
        (buildBatchGroup fnt followers).WellFormed ∧
        ready.logwrite.file.Accepts (recordOps C ready.logwrite.blockOffset
          (ready.updates fnt followers).contents fnt.sync).length := by
  obtain ⟨⟨o', ready⟩, hroom, hrest⟩ := Option.bind_eq_some_iff.mp h
  cases o' with
  | threw =>
    cases hrest
    refine iff_of_false id ?_
    rintro ⟨ready', hroom', -⟩
    rw [hroom] at hroom'
    cases hroom'
  | returned s =>
    cases makeRoomForwrite_ok hroom
    obtain ⟨rfl, hdurable⟩ := write_durable_iff h hroom
    constructor
    · intro hreports
      obtain ⟨ready', hready, hd⟩ := hreports rfl
      rw [hroom] at hready
      cases hready
      exact ⟨ready, hroom, hdurable.mp hd⟩
    · rintro ⟨ready', hready, hcond⟩ -
      rw [hroom] at hready
      cases hready
      exact ⟨ready, hroom, hdurable.mpr hcond⟩

end WriteState

/-! One `Put` on an empty database, with a log file whose operations return `outcomes`. -/

def firstWriter : Writer := ⟨false, .ofOps [⟨.value, [107], [118]⟩]⟩

def syncedWriter : Writer := ⟨true, firstWriter.batch⟩

def firstWrite (outcomes : List State) : WriteState :=
  { db := { versions := {}, logfilenum := 3 }, logwrite := .new { outcomes } }

/-- What fits in the block takes one round. -/
theorem WalWriter.appendrecord_of_fits {C : Crc32c} {w : WalWriter LogFile} {str : Bytes}
    (hne : str ≠ []) (hfits : str.length ≤ available w.blockOffset) :
    w.appendrecord C str = some (w.appendRound C str) := by
  have hav := available_le w.blockOffset
  rw [kBlockSize_eq, kHeaderSize_eq] at hav
  have hsize : w.roundSize str = str.length := by
    rw [roundSize, padBlock_runAll]
    exact Nat.min_eq_left hfits
  rw [appendrecord, Nat.mod_eq_of_lt (by omega), List.take_length, appendLoop, if_neg hne]
  dsimp only
  rw [hsize, List.drop_length, appendLoop, if_pos rfl]

theorem room_firstWrite (outcomes : List State) :
    (firstWrite outcomes).makeRoomForwrite 8192 (fun _ => .ok) [] =
      some (.returned .ok, firstWrite outcomes) := by
  rw [WriteState.makeRoomForwrite]
  rfl

theorem length_firstWrite (outcomes : List State) {fnt : Writer} (h : fnt.batch = firstWriter.batch) :
    ((firstWrite outcomes).updates fnt []).contents.length = 17 := by
  rw [WriteState.updates, buildBatchGroup, mergeFollowers, h]
  rfl

theorem write_firstWrite (outcomes : List State) {fnt : Writer} (h : fnt.batch = firstWriter.batch) :
    ∃ w', (firstWrite outcomes).write .castagnoli 8192 (fun _ => .ok) [] fnt [] =
      some (.returned .ok, w') := by
  have hlen := length_firstWrite outcomes h
  have happend := @WalWriter.appendrecord_of_fits .castagnoli (firstWrite outcomes).logwrite
    ((firstWrite outcomes).updates fnt []).contents
    (List.ne_nil_of_length_eq_add_one hlen) (by rw [hlen]; exact Nat.le_of_ble_eq_true rfl)
  rw [WriteState.write, room_firstWrite]
  dsimp only [Option.bind_eq_bind, Option.bind_some]
  rw [if_pos rfl, WriteState.commit, happend]
  exact ⟨_, rfl⟩

/-- It is durable when nothing fails. -/
theorem write_reports_first :
    ∃ w', (firstWrite []).write .castagnoli 8192 (fun _ => .ok) [] firstWriter [] =
        some (.returned .ok, w') ∧
      WriteState.Reports .castagnoli 8192 (fun _ => .ok) [] firstWriter [] (firstWrite []) w'
        (.returned .ok) := by
  obtain ⟨w', hwrite⟩ := @write_firstWrite [] firstWriter rfl
  have hop : ∀ op ∈ [(⟨.value, [107], [118]⟩ : Op)], op.Encodable :=
    List.forall_mem_singleton.mpr (Op.encodable_put (by decide) (by decide))
  have hinsert := @WriteBatch.insertInto_layout _ (List.replicate 8 0) List.length_replicate hop
    (by decide) {}
  rw [← WriteBatch.ofOps_eq] at hinsert
  refine ⟨w', hwrite, (WriteState.write_reports_iff hwrite).mpr ⟨_, room_firstWrite [], ?_, ?_, ?_⟩⟩
  · rw [length_firstWrite [] rfl]
    decide
  · exact (WriteBatch.insertInto_ok_iff.mp hinsert).1
  · simp [LogFile.Accepts, firstWrite, WalWriter.new]

/-- It is acknowledged when `Sync` fails, too. -/
theorem not_write_reports :
    ∃ w', (firstWrite [.ok, .ok, .ok, .ioError]).write .castagnoli 8192 (fun _ => .ok) []
        syncedWriter [] = some (.returned .ok, w') ∧
      ¬ WriteState.Reports .castagnoli 8192 (fun _ => .ok) [] syncedWriter []
        (firstWrite [.ok, .ok, .ok, .ioError]) w' (.returned .ok) := by
  obtain ⟨w', hwrite⟩ := @write_firstWrite [.ok, .ok, .ok, .ioError] syncedWriter rfl
  refine ⟨w', hwrite, fun hreports => ?_⟩
  obtain ⟨ready, hready, hd⟩ := hreports rfl
  have hcond := ((WriteState.write_durable_iff hwrite hready).2.mp hd).2.2
  rw [room_firstWrite] at hready
  cases hready
  have hlen := @length_firstWrite [.ok, .ok, .ok, .ioError] syncedWriter rfl
  -- the record takes two appends and a flush
  have hops : (recordOps .castagnoli 0
      ((firstWrite [.ok, .ok, .ok, .ioError]).updates syncedWriter []).contents true).length = 4 := by
    rw [recordOps, fragmentOps, fragments_of_fits (List.ne_nil_of_length_eq_add_one hlen)
      (by rw [hlen]; exact Nat.le_of_ble_eq_true rfl)]
    rfl
  refine absurd (hcond .ioError ?_) (by decide)
  show _ ∈ List.take (recordOps .castagnoli 0 _ true).length _
  rw [hops]
  exact List.mem_of_mem_getLast? rfl

end Yubindb
