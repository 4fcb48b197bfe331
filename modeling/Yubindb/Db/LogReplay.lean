import Yubindb.Db.LogRoundTrip
import Yubindb.Db.ManifestRecovery
import Yubindb.Db.Recovery

/-!
# What a replay keeps

`RecoverLogFile` cuts the batches of a log into memtables. Each one that outgrows
`write_buffer_size` becomes a table; the last one of the log is dropped. `flushed` and `dropped` are
the two parts of the entries.
-/

namespace Yubindb

/-! ## Records and entries -/

namespace Reader
variable {C : Crc32c} {r r' : Reader} {frame result : Bytes} {type : Nat}

/-- The length in a header has two bytes. -/
theorem length_of_parseHeader (h : parseHeader C r [] = (type, frame, r')) :
    frame.length < 65536 := by
  rw [parseHeader] at h
  split_ifs at h with hlen heof hzero hcrc
  all_goals cases h
  · exact Nat.zero_lt_succ _
  · exact Nat.zero_lt_succ _
  · exact Nat.zero_lt_succ _
  · exact Nat.zero_lt_succ _
  · refine Nat.lt_of_le_of_lt (List.length_take_le _ _) ?_
    have hbyte (b : UInt8) : b.toNat &&& 0xff < 2 ^ 8 :=
      Nat.lt_of_le_of_lt Nat.and_le_right (by decide)
    refine Nat.or_lt_two_pow (n := 16) ((hbyte _).trans (by decide)) ?_
    rw [Nat.shiftLeft_eq, Nat.pow_add 2 8 8]
    exact Nat.mul_lt_mul_of_pos_right (hbyte _) (by decide)

theorem length_of_readPhysicalRecord (h : readPhysicalRecord C r [] = some (type, frame, r')) :
    frame.length < 65536 := by
  refine of_readPhysicalRecord (Q := fun _ => True) (P := fun _ frame _ => frame.length < 65536)
    (fun _ _ => trivial) (fun _ _ => ?_) (fun _ _ _ => length_of_parseHeader) trivial h
  exact Nat.zero_lt_succ _

theorem length_of_readRecord {more : Bool} {record : Bytes}
    (h : readRecord C r = some (more, record, r')) : record.length < 65536 := by
  rw [readRecord] at h
  split at h
  · cases h
  · next hread =>
    have hlen := length_of_readPhysicalRecord hread
    split_ifs at h with hfull hfirst
    all_goals cases h
    · exact hlen
    · exact hlen
    · exact Nat.zero_lt_succ _

end Reader

namespace WriteBatch
variable {ptr : Bytes}

/-- The strings of an operation come out of the record. -/
theorem length_le_of_readOp {type : Nat} {op : Op} {rest : Bytes}
    (h : readOp type ptr = some (op, rest)) :
    op.key.length ≤ ptr.length ∧ op.value.length ≤ ptr.length := by
  rw [readOp] at h
  split at h
  · obtain ⟨⟨key, p₁⟩, hkey, h⟩ := Option.bind_eq_some_iff.mp h
    obtain ⟨⟨value, p₂⟩, hvalue, h⟩ := Option.bind_eq_some_iff.mp h
    cases h
    have hk := (length_add_of_getLengthPrefixedview hkey).le
    have hv := (length_add_of_getLengthPrefixedview hvalue).le
    exact ⟨(Nat.le_add_right _ _).trans hk,
      ((Nat.le_add_right _ _).trans hv).trans ((Nat.le_add_left _ _).trans hk)⟩
  · split at h
    · obtain ⟨⟨key, p₁⟩, hkey, h⟩ := Option.bind_eq_some_iff.mp h
      cases h
      have hk := (length_add_of_getLengthPrefixedview hkey).le
      exact ⟨(Nat.le_add_right _ _).trans hk, Nat.zero_le _⟩
    · cases h

theorem length_le_of_mem_readOps {op : Op} (h : op ∈ (readOps ptr).1) :
    op.key.length ≤ ptr.length ∧ op.value.length ≤ ptr.length := by
  obtain ⟨_, p, _, hlen, hread⟩ := readOp_of_mem_readOps h
  exact ⟨(length_le_of_readOp hread).1.trans hlen, (length_le_of_readOp hread).2.trans hlen⟩

/-- The entries of a record that the reader can return fit the memtable. -/
theorem fits_of_mem_entries {record : Bytes} (hlen : record.length < 65536) {e : Entry}
    (h : e ∈ (setContents record).entries) : e.Fits := by
  obtain ⟨op, hop, rfl⟩ := List.mem_map.mp h
  obtain ⟨hkey, hvalue⟩ := length_le_of_mem_readOps hop
  have hdrop : ((setContents record).mate.drop Headsize).length < 65536 :=
    (List.drop_sublist _ _).length_le.trans_lt hlen
  refine ⟨Nat.add_lt_of_lt_sub (hkey.trans_lt (hdrop.trans (by decide))),
    hvalue.trans_lt (hdrop.trans (by decide))⟩

end WriteBatch

/-! ## Cutting a log into memtables -/

/-- The entries of the batches, behind the entries `cur` of the memtable in use: those of the
memtables that outgrow `write_buffer_size`, and those that are left at the end of the log. -/
def cut (writeBufferSize : Nat) : List Entry → List WriteBatch → List Entry × List Entry
  | cur, [] => ([], cur)
  | cur, b :: batches =>
    let cur := cur ++ b.entries
    if (Memtable.ofEntries cur).approximateMemoryUsage > writeBufferSize then
      (cur ++ (cut writeBufferSize [] batches).1, (cut writeBufferSize [] batches).2)
    else cut writeBufferSize cur batches

/-- The entries that become tables. -/
def flushed (writeBufferSize : Nat) (logs : List (List WriteBatch)) : List Entry :=
  logs.flatMap fun batches => (cut writeBufferSize [] batches).1

/-- The entries of the memtables that are left. -/
def dropped (writeBufferSize : Nat) (logs : List (List WriteBatch)) : List Entry :=
  logs.flatMap fun batches => (cut writeBufferSize [] batches).2

/-- The entries of the logs. -/
def replayed (logs : List (List WriteBatch)) : List Entry :=
  logs.flatMap (List.flatMap WriteBatch.entries)

section
variable {limit : Nat}

theorem mem_cut {cur : List Entry} {batches : List WriteBatch} {e : Entry} :
    e ∈ (cut limit cur batches).1 ∨ e ∈ (cut limit cur batches).2 ↔
      e ∈ cur ∨ e ∈ batches.flatMap WriteBatch.entries := by
  induction batches generalizing cur with
  | nil => simp [cut]
  | cons b batches ih =>
    rw [cut, List.flatMap_cons]
    split
    · have hrest := @ih []
      simp only [List.mem_append, List.not_mem_nil, false_or] at hrest ⊢
      rw [← hrest, or_assoc, or_assoc]
    · rw [ih, List.mem_append, List.mem_append, or_assoc]

theorem mem_replayed {logs : List (List WriteBatch)} {e : Entry} :
    e ∈ replayed logs ↔ e ∈ flushed limit logs ∨ e ∈ dropped limit logs := by
  induction logs with
  | nil => simp [replayed, flushed, dropped]
  | cons batches logs ih =>
    have hcut := @mem_cut limit [] batches e
    simp only [replayed, flushed, dropped, List.flatMap_cons, List.mem_append] at ih hcut ⊢
    rw [ih, ← false_or (e ∈ batches.flatMap _), ← List.mem_nil_iff e, ← hcut]
    exact or_or_or_comm ..

end

/-! ## The loop of `RecoverLogFile` -/

/-- The batches of the records that are not too small. -/
def batchesOf (records : List Bytes) : List WriteBatch :=
  (records.filter fun record => ¬ record.length < 12).map WriteBatch.setContents

namespace LogReplay
variable {C : Crc32c} {limit : Nat} {io : OpenIo} {reader : Reader} {mem : Option Memtable}
  {r r' : LogReplay} {records : List Bytes} {batches : List WriteBatch}

/-- The loop over the batches that the reader gives. -/
def replayBatches (limit : Nat) (io : OpenIo) :
    List WriteBatch → Option Memtable → LogReplay → State × LogReplay
  | [], _, r => (.ok, r)
  | b :: batches, mem, r =>
    let (s, mem, r) := r.replayRecord limit io b.contents mem
    if s ≠ .ok then (s, r) else replayBatches limit io batches mem r

theorem recoverLoop_of_readRecords (h : reader.readRecords C = some records)
    (mem : Option Memtable) (r : LogReplay) :
    recoverLoop C limit io reader mem r = some (replayBatches limit io (batchesOf records) mem r) := by
  refine Reader.readRecords.partial_correctness C
    (fun reader records => ∀ mem r, recoverLoop C limit io reader mem r =
      some (replayBatches limit io (batchesOf records) mem r))
    (fun readRecords ih reader records h mem r => ?_) reader records h mem r
  obtain ⟨⟨more, record, reader'⟩, hread, h⟩ := Option.bind_eq_some_iff.mp h
  rw [recoverLoop, hread]
  cases more with
  | false =>
    cases h
    rfl
  | true =>
    obtain ⟨rest, hrest, h⟩ := Option.bind_eq_some_iff.mp h
    cases h
    by_cases hlen : record.length < 12
    · rw [batchesOf, List.filter_cons_of_neg (by simp [hlen])]
      simp only [hlen, if_true]
      exact ih _ _ hrest mem r
    · rw [batchesOf, List.filter_cons_of_pos (by simp [hlen]), List.map_cons, replayBatches]
      simp only [hlen, if_false]
      rw [show (WriteBatch.setContents record).contents = record from rfl]
      split
      · rfl
      · exact ih _ _ hrest _ _

/-- When the loop ends well, it has read all records of the log. -/
theorem readRecords_of_recoverLoop (h : recoverLoop C limit io reader mem r = some (.ok, r')) :
    ∃ records, reader.readRecords C = some records ∧
      (∀ record ∈ records, record.length < 65536) ∧
      replayBatches limit io (batchesOf records) mem r = (.ok, r') := by
  have hread : ∃ records, reader.readRecords C = some records ∧
      ∀ record ∈ records, record.length < 65536 := by
    refine recoverLoop.partial_correctness C limit io
      (fun reader _ _ res => res.1 = .ok → ∃ records, reader.readRecords C = some records ∧
        ∀ record ∈ records, record.length < 65536)
      (fun loop ih reader mem r res h hok => ?_) reader mem r _ h rfl
    rw [Reader.readRecords]
    split at h
    · cases h
    · next hread =>
      exact ⟨[], by rw [hread]; rfl, List.forall_mem_nil _⟩
    · next record reader' hread =>
      have hrest : ∃ records, reader'.readRecords C = some records ∧
          ∀ record ∈ records, record.length < 65536 := by
        split at h
        · exact ih _ _ _ _ h hok
        · dsimp only at h
          split at h
          · next hs =>
            cases h
            exact absurd hok hs
          · exact ih _ _ _ _ h hok
      obtain ⟨records, hrecords, hlen⟩ := hrest
      refine ⟨record :: records, ?_, List.forall_mem_cons.mpr
        ⟨Reader.length_of_readRecord hread, hlen⟩⟩
      rw [hread]
      exact congrArg (· >>= fun records => some (record :: records)) hrecords
  obtain ⟨records, hrecords, hlen⟩ := hread
  rw [recoverLoop_of_readRecords hrecords] at h
  exact ⟨records, hrecords, hlen, Option.some.inj h⟩

/-! ## What the tables hold -/

/-- The tables of the replay are in its edit and hold the entries, and the last sequence number is
that of `vs`. -/
structure Keeps (vs : VersionSet) (es : List Entry) (r : LogReplay) : Prop where
  lastSequence : r.versions.lastSequence = vs.lastSequence
  added : ∀ t ∈ r.tables, (0, t.file) ∈ r.edit.newFiles
  holds : ∀ n : Node, (∃ t ∈ r.tables, (n.key, n.val) ∈ t.entries) ↔ ∃ e ∈ es, e.storedNode = n

variable {vs : VersionSet} {es cur : List Entry}

theorem Keeps.setSequence (h : Keeps vs es r) (q : Nat) (save : Bool) :
    Keeps vs es { r with maxSequence := q, saveManifest := save } :=
  ⟨h.lastSequence, h.added, h.holds⟩

theorem writeLevel0Table_keeps (h : Keeps vs es r) (hcur : ∀ e ∈ cur, e.Fits)
    (hwrite : r.writeLevel0Table io (Memtable.ofEntries cur) = (.ok, r')) :
    Keeps vs (es ++ cur) r' := by
  rw [writeLevel0Table] at hwrite
  dsimp only at hwrite
  split at hwrite
  · next hs =>
    exact absurd (congrArg Prod.fst hwrite) hs
  · rw [Memtable.fileMate, if_pos (PNat.pos _)] at hwrite
    cases hwrite
    refine ⟨h.lastSequence, fun t ht => ?_, fun n => ?_⟩
    · rcases List.mem_append.mp ht with ht | ht
      · exact List.mem_append_left _ (h.added t ht)
      · cases List.mem_singleton.mp ht
        exact List.mem_append_right _ (List.mem_singleton_self _)
    · simp only [List.mem_append, or_and_right, exists_or, List.mem_singleton, exists_eq_left,
        h.holds n]
      rw [Memtable.mem_flushlevel0fromskip_ofEntries hcur]

/-- A record whose replay goes well: its entries join the memtable, which becomes a table when it
has outgrown the limit. -/
theorem replayRecord_ok {b : WriteBatch} {mem' : Option Memtable}
    (h : r.replayRecord limit io b.contents mem = (.ok, mem', r')) :
    ∃ m, m = b.entries.foldl Memtable.add (mem.getD {}) ∧
      if m.approximateMemoryUsage > limit then
        mem' = none ∧ ∃ q, writeLevel0Table io { r with maxSequence := q, saveManifest := true } m =
          (.ok, r')
      else mem' = some m ∧ ∃ q, r' = { r with maxSequence := q } := by
  have hinsert : (b.insertInto (mem.getD {})).2 = b.entries.foldl Memtable.add (mem.getD {}) := by
    rw [WriteBatch.insertInto]
    split_ifs <;> rfl
  refine ⟨_, hinsert, ?_⟩
  rw [replayRecord, show WriteBatch.setContents b.contents = b from rfl] at h
  dsimp only at h
  split at h
  · next hs => exact absurd (congrArg Prod.fst h) hs
  · split at h
    · next hlimit =>
      rw [if_pos hlimit]
      obtain ⟨hs, hrest⟩ := Prod.mk.inj h
      obtain ⟨hnone, hr⟩ := Prod.mk.inj hrest
      exact ⟨hnone.symm, _, Prod.ext hs hr⟩
    · next hlimit =>
      rw [if_neg hlimit]
      cases h
      exact ⟨rfl, _, rfl⟩

theorem replayBatches_keeps (h : Keeps vs es r)
    (hfits : ∀ e ∈ batches.flatMap WriteBatch.entries, e.Fits) (hcur : ∀ e ∈ cur, e.Fits)
    (hmem : mem.getD {} = Memtable.ofEntries cur)
    (heq : replayBatches limit io batches mem r = (.ok, r')) :
    Keeps vs (es ++ (cut limit cur batches).1) r' := by
  induction batches generalizing es cur mem r with
  | nil =>
    cases heq
    rwa [cut, List.append_nil]
  | cons b batches ih =>
    rw [List.flatMap_cons, List.forall_mem_append] at hfits
    have hcur' : ∀ e ∈ cur ++ b.entries, e.Fits := List.forall_mem_append.mpr ⟨hcur, hfits.1⟩
    rw [replayBatches] at heq
    dsimp only at heq
    split at heq
    · next hs => exact absurd (congrArg Prod.fst heq) hs
    · next hs =>
      obtain ⟨m, hm, hrecord⟩ := replayRecord_ok (Prod.ext (not_not.mp hs) rfl)
      obtain rfl : m = Memtable.ofEntries (cur ++ b.entries) := by
        rw [hm, hmem, Memtable.ofEntries, Memtable.ofEntries, List.foldl_append]
      rw [cut]
      split at hrecord
      · next hlimit =>
        obtain ⟨hnone, q, hwrite⟩ := hrecord
        rw [hnone] at heq
        rw [if_pos hlimit, ← List.append_assoc]
        exact ih (writeLevel0Table_keeps (h.setSequence q true) hcur' hwrite) hfits.2
          (fun _ h => nomatch h) rfl heq
      · next hlimit =>
        obtain ⟨hsome, q, hr⟩ := hrecord
        rw [hsome, hr] at heq
        rw [if_neg hlimit]
        exact ih (h.setSequence q r.saveManifest) hfits.2 hcur' rfl heq

/-! ## The logs of a directory -/

end LogReplay

/-- The batches that `RecoverLogFile` replays from a log. -/
def Dir.batches (C : Crc32c) (dir : Dir) (number : Nat) : Option (List WriteBatch) :=
  (dir.logs (logFileName (number % 2 ^ 32))).bind fun file =>
    (Reader.readRecords C (.new ⟨file⟩ true 0)).map batchesOf

/-- The batches of the logs that `Open` replays, log by log. -/
def Dir.replayedLogs (C : Crc32c) (dir : Dir) (vs : VersionSet) : Option (List (List WriteBatch)) := do
  let (_, logs) ← scanFiles vs.logNumber dir.filenames (vs.addLiveFiles ∅)
  (logs.mergeSort (· ≤ ·)).mapM (dir.batches C)

namespace LogReplay
variable {C : Crc32c} {limit : Nat} {io : OpenIo} {dir : Dir} {r r' : LogReplay} {vs : VersionSet}

/-- A log whose replay goes well has been read to its end. -/
theorem recoverLogFile_replay {number : Nat}
    (heq : r.recoverLogFile C limit io dir number = some (.ok, r')) :
    ∃ batches, dir.batches C number = some batches ∧
      (∀ e ∈ batches.flatMap WriteBatch.entries, e.Fits) ∧
      replayBatches limit io batches none r = (.ok, r') := by
  rw [recoverLogFile] at heq
  split at heq
  · cases heq
  · split at heq
    · cases heq
    · next file hfile =>
      obtain ⟨records, hrecords, hlen, hreplay⟩ := readRecords_of_recoverLoop heq
      refine ⟨batchesOf records, ?_, fun e he => ?_, hreplay⟩
      · rw [Dir.batches, hfile, Option.bind_some, hrecords, Option.map_some]
      · obtain ⟨b, hb, he⟩ := List.mem_flatMap.mp he
        obtain ⟨record, hrecord, rfl⟩ := List.mem_map.mp hb
        exact WriteBatch.fits_of_mem_entries (hlen record (List.mem_filter.mp hrecord).1) he

/-- What the replay of each log extends by that log holds behind all of them. -/
theorem recoverLogs_induct (P : List (List WriteBatch) → LogReplay → Prop)
    (hstep : ∀ logs batches r r', (∀ e ∈ batches.flatMap WriteBatch.entries, e.Fits) → P logs r →
      replayBatches limit io batches none r = (.ok, r') → P (logs ++ [batches]) r')
    {numbers : List Nat} (h : P [] r)
    (heq : r.recoverLogs C limit io dir numbers = some (.ok, r')) :
    ∃ logs, numbers.mapM (dir.batches C) = some logs ∧ P logs r' := by
  suffices ∀ front, P front r →
      ∃ logs, numbers.mapM (dir.batches C) = some logs ∧ P (front ++ logs) r' from this [] h
  clear h
  induction numbers generalizing r with
  | nil =>
    intro front h
    cases heq
    exact ⟨[], rfl, by rwa [List.append_nil]⟩
  | cons number numbers ih =>
    intro front h
    rw [recoverLogs] at heq
    obtain ⟨⟨s, r₁⟩, hfile, heq⟩ := Option.bind_eq_some_iff.mp heq
    dsimp only at heq
    split at heq
    · next hs =>
      cases heq
      exact absurd rfl hs
    · next hs =>
      cases not_not.mp hs
      obtain ⟨batches, hbatches, hfits, hreplay⟩ := recoverLogFile_replay hfile
      obtain ⟨logs, hlogs, hP⟩ := ih heq _ (hstep front batches r r₁ hfits h hreplay)
      refine ⟨batches :: logs, ?_, ?_⟩
      · rw [List.mapM_cons, hbatches, hlogs]
        rfl
      · rwa [List.append_assoc, List.singleton_append] at hP

theorem recoverLogs_keeps {numbers : List Nat} (h : Keeps vs [] r)
    (heq : r.recoverLogs C limit io dir numbers = some (.ok, r')) :
    ∃ logs, numbers.mapM (dir.batches C) = some logs ∧ Keeps vs (flushed limit logs) r' := by
  refine recoverLogs_induct (fun logs r => Keeps vs (flushed limit logs) r) ?_ h heq
  intro logs batches r r' hfits hkeeps hreplay
  rw [flushed, List.flatMap_append, List.flatMap_singleton]
  exact replayBatches_keeps hkeeps hfits (fun _ h => nomatch h) rfl hreplay

end LogReplay

end Yubindb
