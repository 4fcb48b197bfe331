import Yubindb.Db.SessionReads

/-!
# Group commit

The queue of `DBImpl::Write` calls in `src/db/db.cpp`. The writer at the front takes the batches of
writers behind it into its own, but it never tells them: they stay in the queue. The sections that are
meant to run under the mutex exclude each other here, and a `wait` can end.
-/

namespace Yubindb

/-! ## The queue -/

/-- A call of `Write`: the flag, and the operations of the batch. -/
structure Caller where
  sync : Bool
  ops : List Op
  deriving DecidableEq, Repr

/-- Its `Writer`. -/
def Caller.writer (c : Caller) : Writer := ⟨c.sync, .ofOps c.ops⟩

/-- A session with the queue, and what it has done so far. -/
structure WriteQueue where
  session : Session
  writerque : List Caller := []
  /-- Ghosts: all the calls, and the entries that have been inserted into a memtable. -/
  calls : List Caller := []
  written : List Entry := []

/-- The steps: a section under the mutex each, or what a thread does without it. `create` is the state
of `NewWritableFile`. -/
inductive QueueAction
  /-- `Write` is called. -/
  | call (c : Caller) (create : State)
  /-- The writer at the front returns from its `wait`. -/
  | wake (create : State)
  /-- It returns from the one in `MakeRoomForwrite`. -/
  | resume (create : State)
  /-- `Appendrecord`, and `Sync` when it is due. -/
  | append (appended synced : State)
  | insert
  | publish
  /-- A step of the background thread. -/
  | background (action : Action)

/-- The steps of the background thread. -/
def Action.isBackground : Action → Bool
  | .build | .built .. | .applied .. => true
  | _ => false

namespace WriteQueue

/-- A session without calls. -/
def opened (db : Opened) : WriteQueue where
  session := .opened db

/-- A step of the session. -/
def advance (writeBufferSize : Nat) (action : Action) (q : WriteQueue) : Option WriteQueue :=
  (Session.stepWritten writeBufferSize action (q.session, q.written)).map fun p =>
    { q with session := p.1, written := p.2 }

def enqueue (c : Caller) (q : WriteQueue) : WriteQueue :=
  { q with writerque := q.writerque ++ [c], calls := q.calls ++ [c] }

/-- A turn of the loop of `MakeRoomForwrite`, and `BuildBatchGroup` when it is the last one. -/
def roomTurn (writeBufferSize : Nat) (create : State) (q : WriteQueue) : Option WriteQueue :=
  q.advance writeBufferSize (.room create (q.writerque.tail.map Caller.writer))

/-- The turns of one section. -/
def makeRoom (writeBufferSize : Nat) (create : State) (q : WriteQueue) : Option WriteQueue :=
  match (q.session.db.makeRoomTurn writeBufferSize fun _ => create).1 with
  -- the turn behind a rotation finds `imm_` set, so that it is the last one
  | .rotated => (q.roomTurn writeBufferSize create).bind (roomTurn writeBufferSize create)
  | _ => q.roomTurn writeBufferSize create

/-- The writer at the front leaves its loop. -/
def lead (writeBufferSize : Nat) (create : State) (q : WriteQueue) : Option WriteQueue :=
  match q.writerque with
  | [] => none
  | c :: _ => (q.advance writeBufferSize (.call c.writer)).bind (makeRoom writeBufferSize create)

def step (writeBufferSize : Nat) : QueueAction → WriteQueue → Option WriteQueue
  | .call c create, q =>
    match q.writerque with
    | [] => (q.enqueue c).lead writeBufferSize create
    -- it is not at the front, and waits
    | _ :: _ => some (q.enqueue c)
  | .wake create, q => q.lead writeBufferSize create
  | .resume create, q => q.makeRoom writeBufferSize create
  | .append appended synced, q => q.advance writeBufferSize (.append appended synced)
  | .insert, q => q.advance writeBufferSize .insert
  | .publish, q =>
    -- `now_writer` still is the writer at the front, so the last loop of `Write` removes it only
    (q.advance writeBufferSize .publish).map fun q => { q with writerque := q.writerque.tail }
  | .background action, q => if action.isBackground then q.advance writeBufferSize action else none

end WriteQueue

/-! ## Once and in order -/

/-- What has been done for a call: the entries of its operations, with numbers from its range. -/
structure Share where
  caller : Caller
  start : Nat
  entries : List Entry
  ops_eq : entries.map (fun e => (⟨e.type, e.userKey, e.value⟩ : Op)) = caller.ops.map Op.stored
  range : ∀ e ∈ entries, start ≤ e.sequence ∧ e.sequence < start + caller.ops.length

/-- The end of the range. -/
def Share.stop (p : Share) : Nat := p.start + p.caller.ops.length

/-- Each call has its share in what was logged and what was inserted, in the order of the calls and
with ranges one behind the other. -/
def AppliedOnce (calls : List Caller) (logged inserted : List Entry) : Prop :=
  ∃ shares : List Share, shares.map Share.caller = calls ∧
    shares.Pairwise (fun a b => a.stop ≤ b.start) ∧
    logged = shares.flatMap Share.entries ∧ inserted = shares.flatMap Share.entries

theorem Share.length_entries (p : Share) : p.entries.length = p.caller.ops.length := by
  simpa using congrArg List.length p.ops_eq

theorem AppliedOnce.length_inserted {calls : List Caller} {logged inserted : List Entry}
    (h : AppliedOnce calls logged inserted) :
    inserted.length = (calls.map fun c => c.ops.length).sum := by
  obtain ⟨shares, rfl, -, -, rfl⟩ := h
  rw [List.length_flatMap, List.map_map]
  exact congrArg List.sum (List.map_congr_left fun p _ => p.length_entries)

/-! ## The batch group -/

namespace Caller

/-- The writers that `BuildBatchGroup` takes, for a batch of `size` bytes at the front. -/
def taken (sync : Bool) (size : Nat) (cs : List Caller) : List Caller :=
  cs.takeWhile fun c => c.sync = sync ∧ size + c.writer.batch.byteSize ≤ MaxBatchSize

/-- The bytes that `Append` takes of the batch. -/
def copied (c : Caller) : Bytes := (c.ops.flatMap WriteBatch.encodeOp).takeWhile (· ≠ 0)

theorem writer_batch (c : Caller) : c.writer.batch =
    .ofParts (List.replicate 8 0) c.ops.length (c.ops.flatMap WriteBatch.encodeOp) :=
  WriteBatch.ofOps_eq c.ops

end Caller

theorem mergeFollowers_ofParts {sync : Bool} {size : Nat} {seq : Bytes} (hseq : seq.length = 8)
    (n : Nat) (rep : Bytes) (cs : List Caller) :
    mergeFollowers sync size (.ofParts seq n rep) (cs.map Caller.writer) =
      .ofParts seq (n + ((Caller.taken sync size cs).map fun c => c.ops.length).sum)
        (rep ++ (Caller.taken sync size cs).flatMap Caller.copied) := by
  induction cs generalizing n rep with
  | nil => simp [mergeFollowers, Caller.taken]
  | cons c cs ih =>
    have hsync : c.writer.sync = c.sync := rfl
    rw [List.map_cons, mergeFollowers, hsync]
    split
    · next hno =>
      rw [Caller.taken, List.takeWhile_cons_of_neg (by simp [hno])]
      simp
    · next hsync =>
      split
      · next hsize =>
        rw [Caller.taken, List.takeWhile_cons_of_neg (by simp; omega)]
        simp
      · next hsize =>
        have htaken : Caller.taken sync size (c :: cs) = c :: Caller.taken sync size cs := by
          have hkeep : c.sync = sync ∧ size + c.writer.batch.byteSize ≤ MaxBatchSize :=
            ⟨not_not.mp hsync, Nat.le_of_not_lt hsize⟩
          rw [Caller.taken, List.takeWhile_cons_of_pos (by simpa using hkeep)]
          rfl
        rw [c.writer_batch, WriteBatch.append_ofParts hseq List.length_replicate, ih, htaken,
          List.map_cons, List.sum_cons, List.flatMap_cons, Nat.add_assoc, List.append_assoc]
        rfl

namespace Caller
variable {c front : Caller} {followers : List Caller} {s : Nat}

/-- The operations of the writers that the one at the front takes, with its own. -/
def groupCount (front : Caller) (followers : List Caller) : Nat :=
  front.ops.length +
    ((taken front.sync front.writer.batch.byteSize followers).map fun c => c.ops.length).sum

/-- No whole operation of the writers behind can be read from the bytes that are copied. -/
def Alone (front : Caller) (followers : List Caller) : Prop :=
  (WriteBatch.readOps
    ((taken front.sync front.writer.batch.byteSize followers).flatMap copied)).1 = []

instance (front : Caller) (followers : List Caller) : Decidable (front.Alone followers) :=
  inferInstanceAs (Decidable (_ = []))

theorem buildBatchGroup_eq (front : Caller) (followers : List Caller) :
    buildBatchGroup front.writer (followers.map Caller.writer) =
      .ofParts (List.replicate 8 0) (front.groupCount followers)
        (front.ops.flatMap WriteBatch.encodeOp ++
          (taken front.sync front.writer.batch.byteSize followers).flatMap copied) := by
  have hmerge := @mergeFollowers_ofParts front.sync front.writer.batch.byteSize
    (List.replicate 8 0) List.length_replicate front.ops.length
    (front.ops.flatMap WriteBatch.encodeOp) followers
  rwa [← writer_batch front] at hmerge

theorem length_le_encodeOp (op : Op) :
    op.stored.key.length ≤ (WriteBatch.encodeOp op).length ∧
      op.stored.value.length ≤ (WriteBatch.encodeOp op).length := by
  rw [Op.stored_key, Op.stored, WriteBatch.encodeOp]
  cases op.type <;> simp [putLengthPrefixedview] <;> omega

/-- The strings of a batch of less than `2 ^ 32` bytes fit. -/
theorem encodable (h : c.writer.batch.contents.length < 2 ^ 32) :
    ∀ op ∈ c.ops.map Op.stored, op.Encodable := by
  intro _ hstored
  obtain ⟨op, hop, rfl⟩ := List.mem_map.mp hstored
  have hle : (WriteBatch.encodeOp op).length < 2 ^ 32 := by
    have hmem : WriteBatch.encodeOp op ∈ c.ops.map WriteBatch.encodeOp := List.mem_map_of_mem hop
    have hsub : (WriteBatch.encodeOp op).length ≤ (c.ops.flatMap WriteBatch.encodeOp).length :=
      (List.sublist_flatten_of_mem hmem).length_le
    rw [writer_batch, WriteBatch.contents, WriteBatch.ofParts, List.length_append,
      List.length_append] at h
    omega
  refine ⟨(length_le_encodeOp op).1.trans_lt hle, (length_le_encodeOp op).2.trans_lt hle, ?_⟩
  intro hdel
  rw [Op.stored_type] at hdel
  rw [Op.stored, hdel]

theorem length_le_buildBatchGroup (front : Caller) (followers : List Caller) :
    front.writer.batch.contents.length ≤
      (buildBatchGroup front.writer (followers.map Caller.writer)).contents.length := by
  rw [buildBatchGroup_eq, writer_batch]
  simp [WriteBatch.contents, WriteBatch.ofParts]

theorem entries_group (hs : s < 2 ^ 64) (hfits : front.writer.batch.contents.length < 2 ^ 32)
    (halone : front.Alone followers) :
    ((buildBatchGroup front.writer (followers.map Caller.writer)).setSequence s).entries =
      front.ops.map (·.entryAt s) := by
  have hstored : front.ops.flatMap WriteBatch.encodeOp =
      (front.ops.map Op.stored).flatMap WriteBatch.encodeOp := by
    rw [List.flatMap_map]
    simp only [Op.encodeOp_stored]
  rw [buildBatchGroup_eq, WriteBatch.setSequence_ofParts List.length_replicate,
    WriteBatch.entries_ofParts hs, hstored, WriteBatch.readOps_flatMap_append (encodable hfits),
    halone, List.append_nil, List.map_map]
  exact List.map_congr_left fun op _ => by simp [Op.entryAt]

theorem count_group (h : front.groupCount followers < 2 ^ 31) :
    ((buildBatchGroup front.writer (followers.map Caller.writer)).setSequence s).count =
      front.groupCount followers := by
  rw [buildBatchGroup_eq, WriteBatch.setSequence_ofParts List.length_replicate,
    WriteBatch.count_ofParts (length_encodeFixed64 s)]
  exact Int.bmod_eq_of_le (by omega) (by omega)

end Caller

/-- The operations of `c`, all with the number `s`. -/
def Share.ofCaller (c : Caller) (s : Nat) : Share where
  caller := c
  start := s
  entries := c.ops.map (·.entryAt s)
  ops_eq := by
    rw [List.map_map]
    refine List.map_congr_left fun op _ => ?_
    rw [Function.comp_apply, Op.entryAt, ← op.stored_key, ← op.stored_type]
  range := by
    intro e he
    obtain ⟨op, hop, rfl⟩ := List.mem_map.mp he
    have hpos := List.length_pos_of_mem hop
    exact ⟨Nat.le_refl s, Nat.lt_add_of_pos_right hpos⟩

/-! ## Steps -/

namespace DBImpl
variable {limit : Nat} {create : Nat → State} {db : DBImpl}

/-- The last turn of a section of `MakeRoomForwrite`. -/
def makeRoomTurns (writeBufferSize : Nat) (create : Nat → State) (db : DBImpl) :
    RoomTurn × DBImpl :=
  match db.makeRoomTurn writeBufferSize create with
  | (.rotated, db) => db.makeRoomTurn writeBufferSize create
  | turn => turn

theorem makeRoomTurns_rotated (h : (db.makeRoomTurn limit create).1 = .rotated) :
    db.makeRoomTurns limit create =
      (db.makeRoomTurn limit create).2.makeRoomTurn limit create := by
  rw [makeRoomTurns]
  rcases hturn : db.makeRoomTurn limit create with ⟨turn, db'⟩
  rw [hturn] at h
  cases h
  rfl

theorem makeRoomTurns_eq (h : (db.makeRoomTurn limit create).1 ≠ .rotated) :
    db.makeRoomTurns limit create = db.makeRoomTurn limit create := by
  rw [makeRoomTurns]
  split
  · next hturn => exact absurd (congrArg Prod.fst hturn) h
  · rfl

theorem lastSequence_makeRoomTurn (limit : Nat) (create : Nat → State) (db : DBImpl) :
    (db.makeRoomTurn limit create).2.versions.lastSequence = db.versions.lastSequence := by
  rcases db.makeRoomTurn_cases limit create with
    ⟨s, vs, hvs, hturn⟩ | hturn | hturn | hturn | ⟨-, -, hturn⟩ <;> rw [hturn]
  · exact (Session.advances_keeps hvs).1
  · rfl

end DBImpl

namespace Session
variable {limit : Nat} {action : Action} {synced : State} {st st' : Session}

theorem appendStep_ok
    (hsync : ∀ updates lastSequence, st.writer = .ready true updates lastSequence → synced = .ok)
    (h : st.appendStep .ok synced = some st') :
    ∃ sync updates lastSequence, st.writer = .ready sync updates lastSequence ∧ st' = { st with
      writer := .logged .ok st.db.logfilenum updates lastSequence
      received := st.received ++ logEntries st.db.logfilenum updates } := by
  rw [appendStep] at h
  split at h
  · next sync updates lastSequence hready =>
    refine ⟨sync, updates, lastSequence, hready, ?_⟩
    have hstatue : (if State.ok = .ok ∧ sync then synced else .ok) = .ok := by
      split
      · next hdue =>
        obtain ⟨-, rfl⟩ := hdue
        exact hsync updates lastSequence hready
      · rfl
    dsimp only at h
    rw [hstatue, if_pos rfl] at h
    cases h
    rfl
  · cases h

/-- The background thread writes nothing. -/
theorem background_step (hbackground : action.isBackground)
    (h : step limit action st = some st') : st'.writer = st.writer ∧ st'.received = st.received ∧
      st'.db.versions.lastSequence = st.db.versions.lastSequence ∧ st.inserts action = [] := by
  cases action with
  | build =>
    obtain ⟨-, -, -, rfl⟩ := buildStep_cases h
    exact ⟨rfl, rfl, rfl, rfl⟩
  | built result fileSize shuttingDown io =>
    obtain ⟨_, _, -, -, ⟨_, _, -, rfl⟩ | ⟨_, _, _, hbegin, rfl⟩⟩ := builtStep_cases h
    · exact ⟨rfl, rfl, rfl, rfl⟩
    · exact ⟨rfl, rfl, (VersionSet.beginApply_cases hbegin).1.lastSequence, rfl⟩
  | applied io filenames =>
    obtain ⟨_, -, ⟨_, _, -, rfl⟩ | ⟨_, _, -, -, rfl⟩⟩ := appliedStep_cases h
    · exact ⟨rfl, rfl, rfl, rfl⟩
    · exact ⟨rfl, rfl, rfl, rfl⟩
  | _ => cases hbackground

/-- The entries that are logged but not inserted yet. -/
def uninserted (st : Session) : List Entry :=
  match st.writer with
  | .logged _ _ updates _ => updates.entries
  | _ => []

end Session

namespace WriteQueue

/-- No whole operation of the writers behind can be read from what the one at the front copies of them,
the group fits a record, its count an `int` and its numbers 56 bits. -/
def KeepsGroup (q : WriteQueue) : Prop :=
  ∀ front followers, q.writerque = front :: followers →
    front.Alone followers ∧
    (buildBatchGroup front.writer (followers.map Caller.writer)).contents.length < 2 ^ 32 ∧
    front.groupCount followers < 2 ^ 31 ∧
    q.session.db.versions.lastSequence + front.groupCount followers < 2 ^ 56

/-- What a section of `MakeRoomForwrite` needs, if it ends in a group. -/
def KeepsRoom (writeBufferSize : Nat) (create : State) (q : WriteQueue) : Prop :=
  (∃ s, (q.session.db.makeRoomTurns writeBufferSize fun _ => create).1 = .leave s) → q.KeepsGroup

/-- What the steps need: the groups that they build are right, and the log can be written. -/
def KeepsOnce (writeBufferSize : Nat) (q : WriteQueue) : QueueAction → Prop
  | .call c create => q.writerque = [] → (q.enqueue c).KeepsRoom writeBufferSize create
  | .wake create | .resume create => q.KeepsRoom writeBufferSize create
  | .append appended synced => appended = .ok ∧
    ∀ updates lastSequence, q.session.writer = .ready true updates lastSequence → synced = .ok
  | _ => True

/-- The callers whose entries have not been inserted. -/
def waiting (q : WriteQueue) : List Caller :=
  match q.session.writer with
  | .inserted _ => q.writerque.tail
  | _ => q.writerque

/-- The share of the caller at the front comes next, and `updates` are its entries. -/
def Due (q : WriteQueue) (updates : WriteBatch) (lastSequence : Nat) : Prop :=
  ∃ p : Share, q.writerque.head? = some p.caller ∧ p.entries = updates.entries ∧
    q.session.db.versions.lastSequence + 1 ≤ p.start ∧ p.stop ≤ lastSequence + 1

/-- The writer at the front works on its own batch. -/
def Leads (q : WriteQueue) : WriterPc → Prop
  | .idle | .threw => True
  | .room fnt => q.writerque.head?.map Caller.writer = some fnt
  | .ready _ updates lastSequence => q.Due updates lastSequence
  | .logged statue _ updates lastSequence => statue = .ok ∧ q.Due updates lastSequence
  | .inserted _ => q.writerque ≠ []

/-- The callers that do not wait any more have their shares. -/
structure Tally (q : WriteQueue) (shares : List Share) : Prop where
  calls : q.calls = shares.map Share.caller ++ q.waiting
  ordered : shares.Pairwise fun a b => a.stop ≤ b.start
  below : ∀ p ∈ shares, p.stop ≤ q.session.lastWritten + 1
  logged : q.session.received.map Prod.snd = shares.flatMap Share.entries ++ q.session.uninserted
  inserted : q.written = shares.flatMap Share.entries
  writer : q.Leads q.session.writer

variable {limit : Nat} {create : State} {action : QueueAction} {q q' : WriteQueue}
  {shares : List Share} {c : Caller}

theorem advance_cases {a : Action} (h : q.advance limit a = some q') :
    ∃ st, Session.step limit a q.session = some st ∧
      q' = { q with session := st, written := q.written ++ q.session.inserts a } := by
  obtain ⟨p, hp, rfl⟩ := Option.map_eq_some_iff.mp h
  obtain ⟨st, hst, rfl⟩ := Option.map_eq_some_iff.mp hp
  exact ⟨st, hst, rfl⟩

theorem tally_opened (db : Opened) : (opened db).Tally [] where
  calls := rfl
  ordered := .nil
  below := fun _ h => nomatch h
  logged := rfl
  inserted := rfl
  writer := trivial

theorem Due.mono {updates : WriteBatch} {lastSequence : Nat} (h : q.Due updates lastSequence)
    (hhead : ∀ c, q.writerque.head? = some c → q'.writerque.head? = some c)
    (hlast : q'.session.db.versions.lastSequence = q.session.db.versions.lastSequence) :
    q'.Due updates lastSequence := by
  obtain ⟨p, hp, hentries, hstart, hstop⟩ := h
  exact ⟨p, hhead _ hp, hentries, by rwa [hlast], hstop⟩

/-- Who leads does not change behind its back. -/
theorem Leads.mono {pc : WriterPc} (h : q.Leads pc)
    (hhead : ∀ c, q.writerque.head? = some c → q'.writerque.head? = some c)
    (hlast : q'.session.db.versions.lastSequence = q.session.db.versions.lastSequence) :
    q'.Leads pc := by
  cases pc with
  | room fnt =>
    obtain ⟨c, hc, rfl⟩ := Option.map_eq_some_iff.mp h
    exact Option.map_eq_some_iff.mpr ⟨c, hhead c hc, rfl⟩
  | ready sync updates lastSequence => exact Due.mono h hhead hlast
  | logged statue log updates lastSequence => exact ⟨h.1, Due.mono h.2 hhead hlast⟩
  | inserted lastSequence =>
    intro hnil
    obtain ⟨c, cs, hque⟩ := List.exists_cons_of_ne_nil h
    have hhead' := hhead c (by rw [hque]; rfl)
    rw [hnil] at hhead'
    cases hhead'
  | _ => trivial

theorem Tally.enqueue (h : q.Tally shares) (c : Caller) : (q.enqueue c).Tally shares := by
  refine { h with calls := ?_, writer := h.writer.mono (fun d hd => ?_) rfl }
  · show q.calls ++ [c] = _
    have hwaiting : (q.enqueue c).waiting = q.waiting ++ [c] := by
      have hleads := h.writer
      rw [waiting, waiting, show (q.enqueue c).session = q.session from rfl]
      cases hwriter : q.session.writer with
      | inserted lastSequence =>
        rw [hwriter] at hleads
        exact List.tail_append_of_ne_nil hleads
      | _ => rfl
    rw [hwaiting, h.calls, List.append_assoc]
  · show (q.writerque ++ [c]).head? = some d
    rw [List.head?_append, hd]
    rfl

/-- The writer goes on, and nothing has been logged or inserted by that. -/
theorem Tally.proceed {st : Session} (h : q.Tally shares)
    (hwaiting : ({ q with session := st } : WriteQueue).waiting = q.waiting)
    (hreceived : st.received = q.session.received) (hlast : st.lastWritten = q.session.lastWritten)
    (huninserted : st.uninserted = q.session.uninserted)
    (hwriter : ({ q with session := st } : WriteQueue).Leads st.writer) :
    ({ q with session := st } : WriteQueue).Tally shares where
  calls := by rw [hwaiting]; exact h.calls
  ordered := h.ordered
  below := by rw [hlast]; exact h.below
  logged := by rw [hreceived, huninserted]; exact h.logged
  inserted := h.inserted
  writer := hwriter

/-- The writer stays where it is. -/
theorem Tally.frame {st : Session} (h : q.Tally shares) (hwriter : st.writer = q.session.writer)
    (hreceived : st.received = q.session.received)
    (hlast : st.db.versions.lastSequence = q.session.db.versions.lastSequence) :
    ({ q with session := st } : WriteQueue).Tally shares := by
  apply h.proceed
  · rw [waiting, waiting, hwriter]
  · exact hreceived
  · exact Session.lastWritten_congr hwriter hlast
  · rw [Session.uninserted, Session.uninserted, hwriter]
  · rw [hwriter]
    exact h.writer.mono (fun _ => id) hlast

theorem Tally.call (h : q.Tally shares) (hidle : q.session.writer = .idle)
    (hhead : q.writerque.head? = some c) :
    ({ q with session := { q.session with writer := .room c.writer } } : WriteQueue).Tally
      shares := by
  apply h.proceed
  · rw [waiting, waiting, hidle]
  · rfl
  · rw [Session.lastWritten, Session.lastWritten, hidle]
  · rw [Session.uninserted, Session.uninserted, hidle]
  · show q.writerque.head?.map Caller.writer = _
    rw [hhead]
    rfl

theorem addCount_eq {l n : Nat} (h : l + n < 2 ^ 56) : addCount l n = l + n := by
  rw [addCount]
  omega

theorem Tally.roomTurn (h : q.Tally shares)
    (hkeeps : (∃ s, (q.session.db.makeRoomTurn limit fun _ => create).1 = .leave s) → q.KeepsGroup)
    (hstep : q.roomTurn limit create = some q') : q'.Tally shares := by
  obtain ⟨st, hst, rfl⟩ := advance_cases hstep
  obtain ⟨fnt, hfnt, hcases⟩ := Session.roomStep_cases hst
  have hinserts : q.written ++ q.session.inserts (.room create (q.writerque.tail.map Caller.writer)) =
      q.written := List.append_nil _
  rw [hinserts]
  have hleads := h.writer
  rw [hfnt] at hleads
  obtain ⟨front, hhead, rfl⟩ := Option.map_eq_some_iff.mp hleads
  obtain ⟨followers, hque⟩ := List.head?_eq_some_iff.mp hhead
  obtain ⟨s, vs, hleave, hvs, rfl⟩ | rfl | rfl | ⟨-, -, rfl⟩ := hcases
  · obtain ⟨hseq, -⟩ := Session.advances_keeps hvs
    obtain ⟨halone, hfits, hcount, hbound⟩ := hkeeps ⟨s, hleave⟩ front followers hque
    apply h.proceed
    · rw [waiting, waiting, hfnt]
    · rfl
    · rw [Session.lastWritten, Session.lastWritten, hfnt]
      exact hseq
    · rw [Session.uninserted, Session.uninserted, hfnt]
    · have htail : q.writerque.tail = followers := by rw [hque, List.tail_cons]
      refine ⟨.ofCaller front (vs.lastSequence + 1), hhead, ?_, Nat.le_refl _, ?_⟩
      · rw [htail, Caller.entries_group (by omega)
          ((Caller.length_le_buildBatchGroup front followers).trans_lt hfits) halone]
        rfl
      · rw [htail, Caller.count_group hcount, addCount_eq (by omega)]
        show vs.lastSequence + 1 + front.ops.length ≤ _
        rw [Caller.groupCount]
        omega
  · apply h.proceed
    · rw [waiting, waiting, hfnt]
    · rfl
    · rw [Session.lastWritten, Session.lastWritten, hfnt]
    · rw [Session.uninserted, Session.uninserted, hfnt]
    · trivial
  · exact h
  · exact h.frame rfl rfl rfl

/-- The queue behind a turn that rotates. -/
theorem roomTurn_rotated (hturn : (q.session.db.makeRoomTurn limit fun _ => create).1 = .rotated)
    (hstep : q.roomTurn limit create = some q') :
    q'.session.db = (q.session.db.makeRoomTurn limit fun _ => create).2 ∧
      q'.writerque = q.writerque := by
  obtain ⟨st, hst, rfl⟩ := advance_cases hstep
  rw [Session.step, Session.roomStep] at hst
  split at hst
  · rcases hdb : q.session.db.makeRoomTurn limit fun _ => create with ⟨turn, db⟩
    rw [hdb] at hst hturn
    cases hturn
    cases hst
    exact ⟨rfl, rfl⟩
  · cases hst

theorem Tally.makeRoom (h : q.Tally shares) (hkeeps : q.KeepsRoom limit create)
    (hstep : q.makeRoom limit create = some q') : q'.Tally shares := by
  rw [WriteQueue.makeRoom] at hstep
  split at hstep
  · next hturn =>
    obtain ⟨q₁, hfirst, hsecond⟩ := Option.bind_eq_some_iff.mp hstep
    have hrotated : ¬ ∃ s, (q.session.db.makeRoomTurn limit fun _ => create).1 = .leave s := by
      rintro ⟨s, hleave⟩
      rw [hturn] at hleave
      cases hleave
    refine (h.roomTurn (fun hleave => absurd hleave hrotated) hfirst).roomTurn (fun hleave => ?_)
      hsecond
    obtain ⟨hdb, hque⟩ := roomTurn_rotated hturn hfirst
    have hgroup : q.KeepsGroup := by
      apply hkeeps
      rw [DBImpl.makeRoomTurns_rotated hturn, ← hdb]
      exact hleave
    have hlast : q₁.session.db.versions.lastSequence = q.session.db.versions.lastSequence := by
      rw [hdb]
      exact DBImpl.lastSequence_makeRoomTurn _ _ _
    rwa [KeepsGroup, hque, hlast]
  · next hturn =>
    refine h.roomTurn (fun hleave => hkeeps ?_) hstep
    rwa [DBImpl.makeRoomTurns_eq hturn]

theorem Tally.lead (h : q.Tally shares) (hkeeps : q.KeepsRoom limit create)
    (hstep : q.lead limit create = some q') : q'.Tally shares := by
  rw [WriteQueue.lead] at hstep
  split at hstep
  · cases hstep
  · next c cs hque =>
    obtain ⟨q₁, hcall, hroom⟩ := Option.bind_eq_some_iff.mp hstep
    obtain ⟨st, hst, rfl⟩ := advance_cases hcall
    obtain ⟨hidle, rfl⟩ := Session.callStep_cases hst
    have hcalled := h.call hidle (c := c) (by rw [hque]; rfl)
    rw [← List.append_nil q.written] at hcalled
    exact hcalled.makeRoom hkeeps hroom

theorem Tally.append {st : Session} {appended synced : State} (h : q.Tally shares)
    (hkeeps : q.KeepsOnce limit (.append appended synced))
    (hstep : q.session.appendStep appended synced = some st) :
    ({ q with session := st } : WriteQueue).Tally shares := by
  obtain ⟨rfl, hsync⟩ := hkeeps
  obtain ⟨sync, updates, lastSequence, hready, rfl⟩ := Session.appendStep_ok hsync hstep
  have hleads := h.writer
  rw [hready] at hleads
  have hlogged : q.session.received.map Prod.snd = shares.flatMap Share.entries := by
    have hlogged := h.logged
    rwa [Session.uninserted, hready, List.append_nil] at hlogged
  refine
    { calls := ?_
      ordered := h.ordered
      below := ?_
      logged := ?_
      inserted := h.inserted
      writer := ⟨rfl, hleads⟩ }
  · have hwaiting := h.calls
    rwa [waiting, hready] at hwaiting
  · have hbelow := h.below
    rwa [Session.lastWritten, hready] at hbelow
  · rw [List.map_append, hlogged, Session.map_snd_logEntries]
    rfl

/-- The share of the caller at the front is complete. -/
theorem Tally.insert {st : Session} (h : q.Tally shares)
    (hstep : q.session.insertStep = some st) : ∃ shares, ({ q with
      session := st
      written := q.written ++ q.session.inserts .insert } : WriteQueue).Tally shares := by
  obtain ⟨statue, log, updates, lastSequence, hlogged, hcases⟩ := Session.insertStep_cases hstep
  have hleads := h.writer
  rw [hlogged] at hleads
  obtain ⟨rfl, p, hhead, hentries, hstart, hstop⟩ := hleads
  obtain ⟨hno, -⟩ | ⟨-, rfl⟩ := hcases
  · exact absurd rfl hno
  have hbelow := h.below
  rw [Session.lastWritten, hlogged] at hbelow
  obtain ⟨followers, hque⟩ := List.head?_eq_some_iff.mp hhead
  refine ⟨shares ++ [p],
    { calls := ?_
      ordered := ?_
      below := ?_
      logged := ?_
      inserted := ?_
      writer := ?_ }⟩
  · have hwaiting := h.calls
    rw [waiting, hlogged] at hwaiting
    show q.calls = (shares ++ [p]).map Share.caller ++ q.writerque.tail
    rw [hwaiting, hque, List.map_append, List.append_assoc]
    rfl
  · refine List.pairwise_append.mpr ⟨h.ordered, List.pairwise_singleton _ _, fun a ha b hb => ?_⟩
    rw [List.mem_singleton.mp hb]
    exact (hbelow a ha).trans hstart
  · refine List.forall_mem_append.mpr ⟨fun a ha => ?_, ?_⟩
    · have hlt : p.start ≤ p.stop := Nat.le_add_right _ _
      exact (hbelow a ha).trans (hstart.trans (hlt.trans hstop))
    · rw [List.forall_mem_singleton]
      exact hstop
  · have hreceived := h.logged
    rw [Session.uninserted, hlogged] at hreceived
    rw [List.flatMap_append, List.flatMap_singleton, hentries]
    exact hreceived.trans (List.append_nil _).symm
  · have hinserts : q.session.inserts .insert = updates.entries := by
      simp only [Session.inserts, hlogged]
    rw [List.flatMap_append, List.flatMap_singleton, hentries, hinserts, h.inserted]
  · show q.writerque ≠ []
    rw [hque]
    exact List.cons_ne_nil _ _

theorem Tally.publish {st : Session} (h : q.Tally shares)
    (hstep : q.session.publishStep = some st) :
    ({ q with session := st, writerque := q.writerque.tail } : WriteQueue).Tally shares := by
  obtain ⟨lastSequence, hinserted, rfl⟩ := Session.publishStep_cases hstep
  exact
    { calls := by
        have hwaiting := h.calls
        rwa [waiting, hinserted] at hwaiting
      ordered := h.ordered
      below := by
        have hbelow := h.below
        rwa [Session.lastWritten, hinserted] at hbelow
      logged := by
        have hlogged := h.logged
        rwa [Session.uninserted, hinserted] at hlogged
      inserted := h.inserted
      writer := trivial }

/-! ## Runs -/

/-- Some shares are right. -/
def Tallied (q : WriteQueue) : Prop := ∃ shares, q.Tally shares

theorem Tally.step (h : q.Tally shares) (hkeeps : q.KeepsOnce limit action)
    (hstep : step limit action q = some q') : q'.Tallied := by
  cases action with
  | call c create =>
    rw [WriteQueue.step] at hstep
    split at hstep
    · next hempty => exact ⟨shares, (h.enqueue c).lead (hkeeps hempty) hstep⟩
    · cases hstep
      exact ⟨shares, h.enqueue c⟩
  | wake create => exact ⟨shares, h.lead hkeeps hstep⟩
  | resume create => exact ⟨shares, h.makeRoom hkeeps hstep⟩
  | append appended synced =>
    obtain ⟨st, hst, rfl⟩ := advance_cases hstep
    exact ⟨shares, (List.append_nil q.written).symm ▸ h.append hkeeps hst⟩
  | insert =>
    obtain ⟨st, hst, rfl⟩ := advance_cases hstep
    exact h.insert hst
  | publish =>
    obtain ⟨q₁, hq₁, rfl⟩ := Option.map_eq_some_iff.mp hstep
    obtain ⟨st, hst, rfl⟩ := advance_cases hq₁
    exact ⟨shares, (List.append_nil q.written).symm ▸ h.publish hst⟩
  | background action =>
    rw [WriteQueue.step] at hstep
    split at hstep
    · next hbackground =>
      obtain ⟨st, hst, rfl⟩ := advance_cases hstep
      obtain ⟨hwriter, hreceived, hlast, hinserts⟩ := Session.background_step hbackground hst
      rw [hinserts, List.append_nil]
      exact ⟨shares, h.frame hwriter hreceived hlast⟩
    · cases hstep

/-- In a run whose groups keep to themselves, the calls that have all returned have been logged and
inserted once and in order. -/
theorem appliedOnce {db : Opened} (hrun : Steps (step limit) (KeepsOnce limit) (opened db) q)
    (hreturned : q.writerque = []) :
    AppliedOnce q.calls (q.session.received.map Prod.snd) q.written := by
  have htallied : q.Tallied := by
    refine hrun.invariant (fun q action q' hkeeps hstep htallied => ?_) ⟨[], tally_opened db⟩
    obtain ⟨shares, h⟩ := htallied
    exact h.step hkeeps hstep
  obtain ⟨shares, h⟩ := htallied
  have hwaiting : q.waiting = [] := by
    rw [waiting, hreturned]
    split <;> rfl
  have huninserted : q.session.uninserted = [] := by
    have hleads := h.writer
    rw [Session.uninserted]
    split
    · next hlogged =>
      -- a writer that has logged still is in the queue
      rw [hlogged] at hleads
      obtain ⟨-, p, hhead, -⟩ := hleads
      rw [hreturned] at hhead
      cases hhead
    · rfl
  refine ⟨shares, ?_, h.ordered, ?_, h.inserted⟩
  · rw [h.calls, hwaiting, List.append_nil]
  · rw [h.logged, huninserted, List.append_nil]

/-! ## Three callers -/

/-- The writer at the front has its group. -/
def grouped (q : WriteQueue) (front : Caller) (followers : List Caller) : WriteQueue :=
  let updates := q.session.group front.writer (followers.map Caller.writer)
  { q with session := { q.session with
      writer := .ready front.sync updates
        (addCount q.session.db.versions.lastSequence updates.count) } }

/-- Behind its call, when all the steps succeed. -/
def returned (q : WriteQueue) (front : Caller) (followers : List Caller) : WriteQueue :=
  { q with
    session := q.session.called front.writer (followers.map Caller.writer)
    writerque := q.writerque.tail
    written := q.written ++
      (q.session.group front.writer (followers.map Caller.writer)).entries }

/-- Nobody writes, and the database is a new one but for the entries. -/
structure Quiet (q : WriteQueue) (lastSequence : Nat) (entries : List Entry) : Prop where
  idle : q.session.writer = .idle
  bgError : q.session.db.bgError = .ok
  files : q.session.db.versions.numLevelFiles 0 = 0
  lastSequence : q.session.db.versions.lastSequence = lastSequence
  mem : q.session.db.mem = .ofEntries entries

variable {P : WriteQueue → QueueAction → Prop} {front a b d : Caller} {followers : List Caller}
  {db : Opened} {n m : Nat} {es es' : List Entry}

theorem quiet_opened (hnew : db.New) : (opened db).Quiet 0 [] where
  idle := rfl
  bgError := rfl
  files := by
    show (db.versions.nowversion.files 0).length = 0
    rw [hnew.files]
    rfl
  lastSequence := hnew.lastSequence
  mem := by
    show db.mem = _
    rw [hnew.mem]
    rfl

theorem Quiet.enqueue (h : q.Quiet n es) (c : Caller) : (q.enqueue c).Quiet n es :=
  ⟨h.idle, h.bgError, h.files, h.lastSequence, h.mem⟩

theorem Quiet.returned (front : Caller) (followers : List Caller) (h : q.Quiet n es)
    (hentries : ((buildBatchGroup front.writer (followers.map Caller.writer)).setSequence
      (n + 1)).entries = es')
    (hcount : ((buildBatchGroup front.writer (followers.map Caller.writer)).setSequence
      (n + 1)).count = m) :
    (q.returned front followers).Quiet (addCount n m) (es ++ es') where
  idle := by simp only [WriteQueue.returned, Session.called, h.idle]
  bgError := by simp only [WriteQueue.returned, Session.called, h.bgError]
  files := by
    have hfiles := h.files
    rw [VersionSet.numLevelFiles] at hfiles ⊢
    simp only [WriteQueue.returned, Session.called, VersionSet.setLastSequence, hfiles]
  lastSequence := by
    simp only [WriteQueue.returned, Session.called, VersionSet.setLastSequence, Session.group,
      h.lastSequence, hcount]
  mem := by
    simp only [WriteQueue.returned, Session.called, Session.group, h.lastSequence, hentries, h.mem,
      Memtable.ofEntries, List.foldl_append]

theorem Quiet.written_returned (front : Caller) (followers : List Caller) (h : q.Quiet n es)
    (hentries : ((buildBatchGroup front.writer (followers.map Caller.writer)).setSequence
      (n + 1)).entries = es') : (q.returned front followers).written = q.written ++ es' := by
  simp only [WriteQueue.returned, Session.group, h.lastSequence, hentries]

/-- The writer at the front finds room. -/
theorem Quiet.lead (h : q.Quiet n es) (hque : q.writerque = front :: followers)
    (hroom : (Memtable.ofEntries es).approximateMemoryUsage ≤ limit) :
    q.lead limit .ok = some (q.grouped front followers) := by
  have hturn : (q.session.db.makeRoomTurn limit fun _ => .ok) = (.leave .ok, q.session.db) :=
    DBImpl.makeRoomTurn_leaves h.bgError (by rw [h.files]; decide) (by rwa [h.mem])
  have hstep := @Session.roomStep_leaves limit .ok (followers.map Caller.writer)
    { q.session with writer := .room front.writer } front.writer .ok q.session.db rfl hturn
  have hidle := h.idle
  obtain ⟨session, writerque, calls, written⟩ := q
  obtain ⟨db, disk, tables, writer, background, memLog, immLog, received⟩ := session
  cases hidle
  cases hque
  simp [WriteQueue.lead, makeRoom, roomTurn, advance, Session.stepWritten, Session.step, hstep, hturn,
    Session.inserts, grouped, Session.group]
  rfl

theorem steps_grouped (front : Caller) (followers : List Caller)
    (hwritten : ∀ q, P q (.append .ok .ok) ∧ P q .insert ∧ P q .publish)
    (hidle : q.session.writer = .idle) :
    Steps (step limit) P (q.grouped front followers) (q.returned front followers) := by
  have hrun : runAll (step limit) [.append .ok .ok, .insert, .publish] (q.grouped front followers) =
      some (q.returned front followers) := by
    obtain ⟨session, writerque, calls, written⟩ := q
    obtain ⟨db, disk, tables, writer, background, memLog, immLog, received⟩ := session
    cases hidle
    simp [runAll, step, advance, Session.stepWritten, Session.step, grouped, Session.appendStep,
      Session.insertStep, Session.publishStep, Session.inserts, WriteBatch.insertInto_snd, returned,
      Session.called, Session.group]
  refine .of_runAll (fun l hl q => ?_) hrun
  obtain ⟨happend, hinsert, hpublish⟩ := hwritten q
  simp only [List.mem_cons, List.not_mem_nil, or_false] at hl
  rcases hl with rfl | rfl | rfl <;> assumption

/-- The writer at the front wakes, leads and writes. -/
theorem Quiet.steps_wake (h : q.Quiet n es)
    (hwritten : ∀ q, P q (.append .ok .ok) ∧ P q .insert ∧ P q .publish) (hwake : P q (.wake .ok))
    (hque : q.writerque = front :: followers)
    (hroom : (Memtable.ofEntries es).approximateMemoryUsage ≤ limit) :
    Steps (step limit) P q (q.returned front followers) :=
  .head hwake (h.lead hque hroom) (steps_grouped front followers hwritten h.idle)

/-- Behind the calls of three writers, the last two of which come while the first one writes. -/
def three (db : Opened) (a b d : Caller) : WriteQueue :=
  let q := ((((opened db).enqueue a).enqueue b).enqueue d).returned a []
  (q.returned b [d]).returned d []

theorem steps_three (hnew : db.New)
    (hwritten : ∀ q, P q (.append .ok .ok) ∧ P q .insert ∧ P q .publish)
    (hlate : ∀ q c, q.writerque ≠ [] → P q (.call c .ok)) (hcall : P (opened db) (.call a .ok))
    (hwake : ∀ q, q.Quiet n es → q.writerque = [b, d] → P q (.wake .ok))
    (hlast : ∀ q, q.Quiet m es' → q.writerque = [d] → P q (.wake .ok))
    (hfirst : ((((opened db).enqueue a).enqueue b).enqueue d |>.returned a []).Quiet n es)
    (hsecond : (((((opened db).enqueue a).enqueue b).enqueue d |>.returned a []).returned b
      [d]).Quiet m es')
    (hroom : (Memtable.ofEntries []).approximateMemoryUsage ≤ limit)
    (hroom₁ : (Memtable.ofEntries es).approximateMemoryUsage ≤ limit)
    (hroom₂ : (Memtable.ofEntries es').approximateMemoryUsage ≤ limit) :
    Steps (step limit) P (opened db) (three db a b d) := by
  have hquiet : ((opened db).enqueue a).Quiet 0 [] := (quiet_opened hnew).enqueue a
  refine .head hcall (hquiet.lead rfl hroom) ?_
  refine .head (hlate _ b (List.cons_ne_nil _ _)) rfl ?_
  refine .head (hlate _ d (List.cons_ne_nil _ _)) rfl ?_
  refine .trans (steps_grouped (q := (((opened db).enqueue a).enqueue b).enqueue d) a [] hwritten
    rfl) ?_
  exact .trans (hfirst.steps_wake hwritten (hwake _ hfirst rfl) rfl hroom₁)
    (hsecond.steps_wake hwritten (hlast _ hsecond rfl) rfl hroom₂)

/-- Three callers with one `Put` each. -/
def firstCaller : Caller := ⟨false, [⟨.value, [107], [118]⟩]⟩

def secondCaller : Caller := ⟨false, [⟨.value, [108], [119]⟩]⟩

def thirdCaller : Caller := ⟨false, [⟨.value, [109], [120]⟩]⟩

/-- A caller with a `Delete`; its type byte is zero. -/
def deleteCaller : Caller := ⟨false, [⟨.deletion, [109], []⟩]⟩

theorem entries_first : ((buildBatchGroup firstCaller.writer []).setSequence 1).entries =
    [firstEntry] := by
  decide +kernel

/-- The batch of the third caller is in the group of the second one. -/
theorem entries_second : ((buildBatchGroup secondCaller.writer [thirdCaller.writer]).setSequence
    2).entries = [⟨[108], 2, .value, [119]⟩, ⟨[109], 2, .value, [120]⟩] := by
  decide +kernel

theorem entries_third : ((buildBatchGroup thirdCaller.writer []).setSequence 4).entries =
    [⟨[109], 4, .value, [120]⟩] := by
  decide +kernel

theorem entries_second_delete : ((buildBatchGroup secondCaller.writer
    [deleteCaller.writer]).setSequence 2).entries = [⟨[108], 2, .value, [119]⟩] := by
  decide +kernel

theorem quiet_first {b d : Caller} (hnew : db.New) :
    ((((opened db).enqueue firstCaller).enqueue b).enqueue d |>.returned firstCaller []).Quiet 1
      [firstEntry] :=
  Quiet.returned firstCaller [] ((((quiet_opened hnew).enqueue firstCaller).enqueue b).enqueue d)
    entries_first (m := 1) (by decide +kernel)

/-- The log can be written. -/
def LogWritten : QueueAction → Prop
  | .append appended synced => appended = .ok ∧ synced = .ok
  | _ => True

/-- The second and the third caller come while the first one writes: the entry of the third one is
logged and inserted twice. -/
theorem not_appliedOnce : ∃ (db : Opened) (q : WriteQueue),
    ({} : Dir).open .castagnoli 8192 {} = some (.ok, some db) ∧
    Steps (step 8192) (fun _ action => LogWritten action) (opened db) q ∧ q.writerque = [] ∧
      ¬ AppliedOnce q.calls (q.session.received.map Prod.snd) q.written := by
  obtain ⟨db, hopen⟩ := Dir.exists_open_new .castagnoli 8192
  have hnew := Dir.open_new rfl (fun _ => rfl) hopen
  have hfirst := quiet_first (b := secondCaller) (d := thirdCaller) hnew
  have hsecond := hfirst.returned secondCaller [thirdCaller] entries_second (m := 2)
    (by decide +kernel)
  refine ⟨db, three db firstCaller secondCaller thirdCaller, hopen, ?_, rfl, fun h => ?_⟩
  · exact steps_three hnew (fun _ => ⟨⟨rfl, rfl⟩, trivial, trivial⟩) (fun _ _ _ => trivial) trivial
      (fun _ _ _ => trivial) (fun _ _ _ => trivial) hfirst hsecond (by decide +kernel)
      (by decide +kernel) (by decide +kernel)
  · have hquiet :=
      (((quiet_opened hnew).enqueue firstCaller).enqueue secondCaller).enqueue thirdCaller
    have hlength : (three db firstCaller secondCaller thirdCaller).written.length = 3 :=
      h.length_inserted
    rw [three, hsecond.written_returned thirdCaller [] entries_third,
      hfirst.written_returned secondCaller [thirdCaller] entries_second,
      hquiet.written_returned firstCaller [] entries_first,
      show WriteQueue.written _ = [] from rfl] at hlength
    exact absurd hlength (by decide)

/-- The second caller's group has the `Delete` of the third one in its count, and copies nothing of
it. -/
theorem appliedOnce_delete : ∃ (db : Opened) (q : WriteQueue),
    ({} : Dir).open .castagnoli 8192 {} = some (.ok, some db) ∧
    q.calls = [firstCaller, secondCaller, deleteCaller] ∧
    AppliedOnce q.calls (q.session.received.map Prod.snd) q.written := by
  obtain ⟨db, hopen⟩ := Dir.exists_open_new .castagnoli 8192
  have hnew := Dir.open_new rfl (fun _ => rfl) hopen
  have hfirst := quiet_first (b := secondCaller) (d := deleteCaller) hnew
  have hsecond := hfirst.returned secondCaller [deleteCaller] entries_second_delete
    (m := 2) (by decide +kernel)
  have halone (c : Caller) : c.Alone [] := by
    simp [Caller.Alone, Caller.taken, WriteBatch.readOps]
  have hcall : KeepsOnce 8192 (opened db) (.call firstCaller .ok) := by
    intro _ _ front followers hque
    cases hque
    refine ⟨halone _, by decide, by decide, ?_⟩
    rw [((quiet_opened hnew).enqueue firstCaller).lastSequence]
    decide
  have hwake (q : WriteQueue) (hq : q.Quiet 1 [firstEntry])
      (hque : q.writerque = [secondCaller, deleteCaller]) : KeepsOnce 8192 q (.wake .ok) := by
    intro _ front followers hfront
    rw [hque] at hfront
    cases hfront
    refine ⟨by decide +kernel, by decide +kernel, by decide +kernel, ?_⟩
    rw [hq.lastSequence]
    decide +kernel
  have hlast (q : WriteQueue)
      (hq : q.Quiet (addCount 1 2) ([firstEntry] ++ [⟨[108], 2, .value, [119]⟩]))
      (hque : q.writerque = [deleteCaller]) : KeepsOnce 8192 q (.wake .ok) := by
    intro _ front followers hfront
    rw [hque] at hfront
    cases hfront
    refine ⟨halone _, by decide, by decide, ?_⟩
    rw [hq.lastSequence]
    decide
  have hrun : Steps (step 8192) (KeepsOnce 8192) (opened db)
      (three db firstCaller secondCaller deleteCaller) :=
    steps_three hnew (fun _ => ⟨⟨rfl, fun _ _ _ => rfl⟩, trivial, trivial⟩)
      (fun _ _ hne hnil => absurd hnil hne) hcall hwake hlast hfirst hsecond (by decide +kernel)
      (by decide +kernel) (by decide +kernel)
  exact ⟨db, _, hopen, rfl, appliedOnce hrun rfl⟩

end WriteQueue
end Yubindb
