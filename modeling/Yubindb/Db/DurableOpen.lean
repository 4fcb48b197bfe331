import Yubindb.Db.DurableLog
import Yubindb.Db.NewLog

/-!
# What a reopened database has of acknowledged writes

`Open` behind a power failure, on the volume of a log: the batches in front of the last `Sync` that
returned `Ok`, and what the replay keeps of them.
-/

namespace Yubindb

/-! ## The batches of a log -/

theorem batchesOf_stored (records : List Bytes) : batchesOf (stored records) = batchesOf records := by
  rw [batchesOf, batchesOf, stored, List.filter_filter]
  refine congrArg (List.map _) (List.filter_congr fun record _ => ?_)
  cases record with
  | nil => rfl
  | cons b record => simp

theorem batchesOf_prefix {records records' : List Bytes} (h : records <+: records') :
    batchesOf records <+: batchesOf records' := (h.filter _).map _

/-- More batches leave the memtables that have outgrown `write_buffer_size` as they are. -/
theorem cut_fst_mono {limit : Nat} {batches batches' : List WriteBatch} (h : batches <+: batches')
    (cur : List Entry) : (cut limit cur batches).1 <+: (cut limit cur batches').1 := by
  obtain ⟨more, rfl⟩ := h
  induction batches generalizing cur with
  | nil => exact List.nil_prefix
  | cons b batches ih =>
    rw [List.cons_append, cut, cut]
    split
    · exact (List.prefix_append_right_inj _).mpr (ih [])
    · exact ih _

theorem exists_of_mapM {α β : Type*} {f : α → Option β} {l : List α} {l' : List β} {a : α}
    (h : l.mapM f = some l') (ha : a ∈ l) : ∃ b ∈ l', f a = some b := by
  induction l generalizing l' with
  | nil => exact absurd ha List.not_mem_nil
  | cons a' l ih =>
    rw [List.mapM_cons] at h
    obtain ⟨b, hb, h⟩ := Option.bind_eq_some_iff.mp h
    obtain ⟨bs, hbs, h⟩ := Option.bind_eq_some_iff.mp h
    cases h
    rcases List.mem_cons.mp ha with rfl | ha
    · exact ⟨b, List.mem_cons_self, hb⟩
    · obtain ⟨b', hmem, hb'⟩ := ih hbs ha
      exact ⟨b', List.mem_cons_of_mem b hmem, hb'⟩

namespace Dir
variable {C : Crc32c} {limit : Nat} {io : OpenIo} {dir : Dir} {db : Opened} {vs : VersionSet}
  {numbers : List Nat} {logs : List (List WriteBatch)}

theorem Replays.batches (h : dir.Replays C vs numbers logs) {number : Nat} (hmem : number ∈ numbers) :
    ∃ batches ∈ logs, dir.batches C number = some batches :=
  exists_of_mapM h.contents (List.mem_mergeSort.mpr hmem)

theorem open_replays (h : dir.open C limit io = some (.ok, some db)) :
    ∃ vs numbers logs, dir.Replays C vs numbers logs ∧ dir.Recovered C limit db vs logs := by
  obtain ⟨vs, logs, hrec⟩ := open_recovered h
  obtain ⟨⟨expected, numbers⟩, hscan, hmap⟩ := Option.bind_eq_some_iff.mp hrec.replayedLogs
  exact ⟨vs, numbers, logs, ⟨hrec.manifest, ⟨expected, hscan⟩, hmap⟩, hrec⟩

/-- Of a log, every entry is kept that is in a memtable which has outgrown `write_buffer_size` behind
some of its batches. -/
theorem Recovered.retains_of_prefix (h : dir.Recovered C limit db vs logs)
    {batches batches' : List WriteBatch} (hmem : batches' ∈ logs) (hfront : batches <+: batches')
    {e : Entry} (he : e ∈ (cut limit [] batches).1) : db.Retains e.storedNode :=
  (h.retains _).mpr ⟨e, List.mem_flatMap.mpr ⟨batches', hmem, (cut_fst_mono hfront []).subset he⟩, rfl⟩

end Dir

/-! ## Behind a power failure -/

namespace WalFile
variable {C : Crc32c} {limit : Nat} {io : OpenIo} {dir : Dir} {db : Opened} {f f' : WalFile}
  {calls front : List DbCall} {action : WalAction}

/-- Between any two calls of a log, the power fails, and an `Open` on what is left succeeds. Where it
replays the log, it replays all batches in front of the last `Sync` that returned `Ok`, and behind them
a front of the later ones; and it keeps the entries that have filled memtables by then. -/
theorem open_acked {v : DbVolume} {number : Nat} (hnew : v.names (logFileName (number % 2 ^ 32)) = none)
    (hrun : Steps (step C (logFileName (number % 2 ^ 32)) v.next) (fun _ _ => True)
      (opened v (logFileName (number % 2 ^ 32))) f)
    (hact : f.act C (logFileName (number % 2 ^ 32)) v.next action = some (calls, f'))
    (hfront : front <+: calls) {w : DbVolume} (hcrash : (f.volume.after front).Crash w)
    {acked : List Bytes} (hacked : acked ∈ f.acked) (hblocks : InBlocks 0 (stored f'.records))
    (hlog : dir.logs (logFileName (number % 2 ^ 32)) = w.read (logFileName (number % 2 ^ 32)))
    (hopen : dir.open C limit io = some (.ok, some db)) :
    ∃ vs numbers logs, dir.Replays C vs numbers logs ∧ dir.Recovered C limit db vs logs ∧
      (number ∈ numbers →
        (∃ batches ∈ logs, batchesOf acked <+: batches ∧ batches <+: batchesOf f'.records) ∧
        ∀ e ∈ (cut limit [] (batchesOf acked)).1, db.Retains e.storedNode) := by
  have hinv := inv_of_steps hrun (.opened C hnew)
  have hbound := bound_of_act hact hfront
    (hinv.bound (ismanifest_makeFileName _ _) (Option.isSome_of_mem hacked))
  obtain ⟨p, hread, hle, hp⟩ := hinv.crash_act hact hfront hacked hbound hcrash
  have hstored := (hinv.acked_front hacked).trans (ghosts_of_act hact).1
  obtain ⟨vs, numbers, logs, hreplays, hrec⟩ := Dir.open_replays hopen
  refine ⟨vs, numbers, logs, hreplays, hrec, fun hmem => ?_⟩
  obtain ⟨batches, hbatches, hlogged⟩ := hreplays.batches hmem
  rw [Dir.batches, hlog, hread, Option.bind_some] at hlogged
  obtain ⟨read, hrecords, rfl⟩ := Option.map_eq_some_iff.mp hlogged
  rcases Reader.readRecords_of_prefix hblocks hp hstored hle with ⟨-, hnone⟩ | ⟨-, read', hsome, hback, hahead⟩
  · rw [hnone] at hrecords
    cases hrecords
  rw [hsome] at hrecords
  cases hrecords
  have hback := batchesOf_prefix hback
  have hahead := batchesOf_prefix hahead
  rw [batchesOf_stored] at hback hahead
  exact ⟨⟨_, hbatches, hback, hahead⟩, fun e he => hrec.retains_of_prefix hbatches hback he⟩

/-- The `Put` of the session, with `sync`. -/
theorem open_acked_crashed :
    ∃ w vs disk db, WalWriter.appendAll .castagnoli (.new WritableFile.empty)
        [firstPut.contents] = some w ∧
      newDatabase.bind (applyAll [sessionOpen]) = some (vs, disk) ∧
      ∃ vs numbers logs, (Dir.crashed disk w.file.disk).Replays .castagnoli vs numbers logs ∧
        (Dir.crashed disk w.file.disk).Recovered .castagnoli 8192 db vs logs ∧
        (3 ∈ numbers →
          (∃ batches ∈ logs, batchesOf [firstPut.contents] <+: batches ∧
            batches <+: batchesOf [firstPut.contents]) ∧
          ∀ e ∈ (cut 8192 [] (batchesOf [firstPut.contents])).1, db.Retains e.storedNode) := by
  obtain ⟨w, vs, disk, db, hw, hdisk, hopen, -⟩ := open_crashed
  obtain rfl := Option.some.inj ((WalWriter.appendAll_written .castagnoli _).symm.trans hw)
  let name := logFileName (3 % 2 ^ 32)
  obtain ⟨calls, hfirst⟩ :=
    @act_appendrecord .castagnoli (opened {} name) name 0 firstPut.contents rfl
  let f₁ : WalFile := ⟨(opened {} name).volume.after calls, .written .castagnoli [firstPut.contents],
    [firstPut.contents], none⟩
  obtain ⟨f₂, hsync, hacked, hrecords⟩ : ∃ f₂, step .castagnoli name 0 (.sync {}) f₁ = some f₂ ∧
      f₂.acked = some [firstPut.contents] ∧ f₂.records = [firstPut.contents] := ⟨_, rfl, rfl, rfl⟩
  have hrun : Steps (step .castagnoli name 0) (fun _ _ => True) (opened {} name) f₂ :=
    .head trivial (step_of_act hfirst) (.head trivial hsync (.refl _))
  have hinv : Inv .castagnoli name 0 f₂ := inv_of_steps hrun (.opened (v := {}) .castagnoli rfl)
  obtain ⟨p, hread, hle, hp⟩ := hinv.crash hacked
    (hinv.bound (ismanifest_makeFileName 3 _) (Option.isSome_of_mem hacked)) (Volume.crash_settled _)
  rw [hrecords] at hp
  have hlog : (Dir.crashed disk (logBytes .castagnoli [firstPut.contents])).logs name =
      f₂.volume.settled.read name := by
    rw [Dir.logs_crashed, hread, hle.eq_of_length_le hp.length_le]
  have hlast : f₂.act .castagnoli name 0 (.other .fsyncDir) = some ([.fsyncDir], f₂) := rfl
  have hblocks : InBlocks 0 (stored f₂.records) := hrecords ▸ by decide
  have hkept := open_acked (v := {}) rfl hrun hlast List.nil_prefix (Volume.crash_settled _) hacked
    hblocks hlog hopen
  rw [hrecords] at hkept
  exact ⟨_, vs, disk, db, hw, hdisk, hkept⟩

end WalFile

end Yubindb
