import Yubindb.Db.TableLayout

/-!
# Failed writes of a table

`src/db/memtable.cpp`: what the `Finish` of a builder reports when appends to its file fail. `Flush` does
not look at the state, and `WriteRawBlock` replaces it.
-/

namespace Yubindb

/-- A file whose appends have these results, and how many were made. -/
structure ScriptedFile where
  results : ℕ → State
  appends : ℕ := 0

instance : AppendFile ScriptedFile where
  append f _ := (f.results f.appends, { f with appends := f.appends + 1 })
  flush f := (.ok, f)
  sync f := (.ok, f)

namespace Tablebuilder

/-! ## The data blocks -/

/-- How many data blocks these calls of `Add`, and the `Flush` of `Finish`, cut the entries into. -/
def cutBlocks (opt : Options) (block : Blockbuilder) : List (Bytes × Bytes) → ℕ
  | [] => if block.empty then 0 else 1
  | e :: es =>
    let block := block.add opt.blockRestartInterval e.1 e.2
    if block.currentSizeEstimate ≥ opt.blockSize then cutBlocks opt .reset es + 1
    else cutBlocks opt block es

section Script
variable (results : ℕ → State)

/-- The first append of the data block `k`: the ones before it took two appends each, or one that
failed. -/
def firstAppend : ℕ → ℕ
  | 0 => 0
  | k + 1 => if results (firstAppend k) = .ok then firstAppend k + 2 else firstAppend k + 1

/-- The state that `WriteRawBlock` leaves for the data block `k`. -/
def blockState (k : ℕ) : State :=
  let i := firstAppend results k
  if results i = .ok then results (i + 1) else results i

/-- The builder's state behind `k` data blocks. -/
def stateBehind : ℕ → State
  | 0 => .ok
  | k + 1 => blockState results k

/-- A data block that fails to be written is the last one, or else it, or one of the seven appends of
`Finish` behind it, fails too. -/
def FailsLate (blocks : ℕ) : Prop :=
  (∀ k, k + 1 < blocks → blockState results k = .ok) ∨
    stateBehind results blocks ≠ .ok ∨
    ∃ j < 7, results (firstAppend results blocks + j) ≠ .ok

end Script

variable {E : TableEnv} {b : Tablebuilder ScriptedFile} {results : ℕ → State} {k : ℕ}

/-- The builder has written `k` data blocks, and nothing else. -/
structure Behind (results : ℕ → State) (k : ℕ) (b : Tablebuilder ScriptedFile) : Prop where
  file : b.file = ⟨results, firstAppend results k⟩
  state : b.state = stateBehind results k

theorem writeRawBlock_scripted {i : ℕ} (hfile : b.file = ⟨results, i⟩) (contents : Bytes)
    (type : CompressionType) :
    (b.writeRawBlock E contents type).2.file =
        ⟨results, if results i = .ok then i + 2 else i + 1⟩ ∧
      (b.writeRawBlock E contents type).2.state =
        if results i = .ok then results (i + 1) else results i := by
  simp only [writeRawBlock, hfile, AppendFile.append]
  by_cases hfirst : results i = .ok
  · by_cases hsecond : results (i + 1) = .ok
    · simp [hfirst, hsecond]
    · simp [hfirst, hsecond]
  · simp [hfirst]

theorem Behind.writeBlock (h : Behind results k b) (block : Blockbuilder) :
    Behind results (k + 1) (b.writeBlock E block).2 := by
  obtain ⟨hfile, hstate⟩ := writeRawBlock_scripted h.file
    (stored E b.options block).1 (stored E b.options block).2
  rw [writeBlock_eq]
  constructor
  · rw [hfile, firstAppend]
  · exact hstate

theorem Behind.flush (h : Behind results k b) :
    Behind results (k + if b.dataBlock.empty then 0 else 1) (b.flush E) := by
  rw [Tablebuilder.flush]
  split
  · exact h
  · obtain ⟨hfile, hstate⟩ := h.writeBlock (E := E) b.dataBlock
    exact ⟨hfile, hstate⟩

theorem Behind.added (h : Behind results k b) (key val : Bytes) :
    Behind results k (b.added key val) := by
  rw [Tablebuilder.added, Tablebuilder.addIndexEntry]
  split <;> exact ⟨h.file, h.state⟩

/-- A sequence of `Add` and the `Flush` behind it write the blocks that the entries are cut into. -/
theorem Behind.flush_addAll (h : Behind results k b) (es : List (Bytes × Bytes)) :
    Behind results (k + cutBlocks b.options b.dataBlock es) ((b.addAll E es).flush E) := by
  induction es generalizing b k with
  | nil => exact h.flush
  | cons e es ih =>
    have hadded := h.added e.1 e.2
    rw [addAll_cons, add_eq, flushIfFull, cutBlocks]
    simp only [dataBlock_added, options_added]
    split
    · have hflush := hadded.flush (E := E)
      rw [empty_added, if_neg Bool.false_ne_true] at hflush
      have hrest := ih hflush
      rwa [options_flush, options_added, dataBlock_flush empty_added, Nat.add_assoc,
        Nat.add_comm 1] at hrest
    · have hrest := ih hadded
      rwa [options_added, dataBlock_added] at hrest

/-! ## `Finish` -/

/-- Behind `k` data blocks, `Finish` has gone on as if `m` appends had succeeded: its state is Ok exactly
when they and the last data block have, and then it has made just these. -/
structure Finishing (results : ℕ → State) (k m : ℕ) (b : Tablebuilder ScriptedFile) : Prop where
  script : b.file.results = results
  state : b.state = .ok ↔
    stateBehind results k = .ok ∧ ∀ j < m, results (firstAppend results k + j) = .ok
  appends : b.state = .ok → b.file.appends = firstAppend results k + m

variable {m : ℕ}

theorem Behind.finishing (h : Behind results k b) : Finishing results k 0 b where
  script := by rw [h.file]
  state := by simp [h.state]
  appends _ := by rw [h.file, Nat.add_zero]

theorem Finishing.writeRawBlock (h : Finishing results k m b) (hb : b.state = .ok)
    (contents : Bytes) (type : CompressionType) :
    Finishing results k (m + 2) (b.writeRawBlock E contents type).2 := by
  have hfile : b.file = ⟨results, firstAppend results k + m⟩ := by
    rw [← h.appends hb, ← h.script]
  obtain ⟨hfile', hstate⟩ := writeRawBlock_scripted hfile contents type (E := E)
  obtain ⟨hlast, hmade⟩ := h.state.mp hb
  have hboth : (b.writeRawBlock E contents type).2.state = .ok ↔
      results (firstAppend results k + m) = .ok ∧ results (firstAppend results k + (m + 1)) = .ok := by
    rw [hstate]
    split
    · next hfirst => simp [hfirst, Nat.add_assoc]
    · next hfirst => simp [hfirst]
  constructor
  · rw [hfile']
  · rw [hboth, Nat.forall_lt_succ_right, Nat.forall_lt_succ_right, and_iff_right hlast, and_assoc,
      and_iff_right hmade]
  · intro hok
    rw [hfile', if_pos (hboth.mp hok).1]
    rfl

/-- Where the state is not Ok, nothing more is written. -/
theorem Finishing.of_state (h : Finishing results k m b) (hb : b.state ≠ .ok) (n : ℕ) :
    Finishing results k (m + n) b where
  script := h.script
  state := by
    refine iff_of_false hb ?_
    rintro ⟨hlast, hmade⟩
    exact hb (h.state.mpr ⟨hlast, fun j hj => hmade j (Nat.lt_add_right n hj)⟩)
  appends hok := absurd hok hb

theorem Finishing.congr {b' : Tablebuilder ScriptedFile} (h : Finishing results k m b)
    (hfile : b'.file = b.file) (hstate : b'.state = b.state) : Finishing results k m b' where
  script := by rw [hfile, h.script]
  state := by rw [hstate, h.state]
  appends hok := by rw [hfile, h.appends (hstate ▸ hok)]

theorem Finishing.finishFilter (h : Finishing results k m b) :
    Finishing results k (m + 2) (b.finishFilter E).2 := by
  rw [Tablebuilder.finishFilter]
  split
  · next hb => exact h.writeRawBlock hb _ _
  · next hb => exact h.of_state hb 2

theorem Finishing.finishMetaindex (h : Finishing results k m b) (handle : BlockHandle) :
    Finishing results k (m + 2) (b.finishMetaindex E handle).2 := by
  rw [Tablebuilder.finishMetaindex]
  split
  · next hb =>
    rw [writeBlock_eq]
    exact h.writeRawBlock hb _ _
  · next hb => exact h.of_state hb 2

theorem Finishing.finishIndex (h : Finishing results k m b) :
    Finishing results k (m + 2) (b.finishIndex E).2 := by
  rw [Tablebuilder.finishIndex]
  split
  · next hb =>
    have hfile : (b.addIndexEntry b.lastKey).file = b.file := by
      rw [addIndexEntry]
      split <;> rfl
    have hstate : (b.addIndexEntry b.lastKey).state = b.state := by
      rw [addIndexEntry]
      split <;> rfl
    dsimp only
    rw [writeBlock_eq]
    exact ((h.congr hfile hstate).writeRawBlock (hstate.trans hb) _ _).congr rfl rfl
  · next hb => exact h.of_state hb 2

theorem Finishing.finishFooter (h : Finishing results k m b) (footer : Footer) :
    Finishing results k (m + 1) (b.finishFooter footer) := by
  rw [Tablebuilder.finishFooter]
  split
  · next hb =>
    have hfile : b.file = ⟨results, firstAppend results k + m⟩ := by
      rw [← h.appends hb, ← h.script]
    obtain ⟨hlast, hmade⟩ := h.state.mp hb
    simp only [hfile, AppendFile.append]
    split
    · next hfooter =>
      refine ⟨rfl, iff_of_true hfooter ⟨hlast, ?_⟩, fun _ => rfl⟩
      exact Nat.forall_lt_succ_right.mpr ⟨hmade, hfooter⟩
    · next hfooter =>
      refine ⟨rfl, iff_of_false hfooter ?_, fun hok => absurd hok hfooter⟩
      exact fun hall => hfooter (Nat.forall_lt_succ_right.mp hall.2).2
  · next hb => exact h.of_state hb 1

theorem Behind.finish {E : TableEnv} (h : Behind results k (b.flush E)) :
    Finishing results k 7 (b.finish E) := by
  have hclosed : Behind results k { b.flush E with closed := true } := ⟨h.file, h.state⟩
  exact ((hclosed.finishing.finishFilter.finishMetaindex _).finishIndex).finishFooter _

/-! ## The report -/

/-- The appends of the data blocks succeeded exactly when no block failed. -/
theorem forall_results_iff (results : ℕ → State) (k : ℕ) :
    (∀ i < firstAppend results k, results i = .ok) ↔ ∀ j < k, blockState results j = .ok := by
  induction k with
  | zero => simp [firstAppend]
  | succ k ih =>
    rw [Nat.forall_lt_succ_right, ← ih, firstAppend, blockState]
    split
    · next hfirst =>
      rw [Nat.forall_lt_succ_right, Nat.forall_lt_succ_right, and_assoc, and_iff_right hfirst]
    · rw [Nat.forall_lt_succ_right]

/-- `Finish` returns Ok only if all appends have succeeded, exactly where a data block that fails is
the last one or something behind the last one fails too. -/
theorem finish_reports_iff (E : TableEnv) (opt : Options) (es : List (Bytes × Bytes))
    (results : ℕ → State) :
    let done := ((new opt (ScriptedFile.mk results 0)).addAll E es).finish E
    (done.state = .ok → ∀ i < done.file.appends, results i = .ok) ↔
      FailsLate results (cutBlocks opt.copy {} es) := by
  intro done
  have hnew : Behind results 0 (new opt (ScriptedFile.mk results 0)) := ⟨rfl, rfl⟩
  have hbehind : Behind results (0 + cutBlocks opt.copy {} es) (((new opt _).addAll E es).flush E) :=
    hnew.flush_addAll es
  rw [Nat.zero_add] at hbehind
  generalize cutBlocks opt.copy {} es = n at hbehind ⊢
  obtain ⟨-, hstate, happends⟩ := hbehind.finish
  constructor
  · intro hreports
    by_cases hok : done.state = .ok
    · have hall := hreports hok
      rw [happends hok] at hall
      have hblocks := (forall_results_iff results n).mp fun i hi => hall i (Nat.lt_add_right 7 hi)
      exact .inl fun k hk => hblocks k (Nat.lt_of_succ_lt hk)
    · by_cases hlast : stateBehind results n = .ok
      · have hsome : ∃ j < 7, results (firstAppend results n + j) ≠ .ok := by
          by_contra hnone
          push Not at hnone
          exact hok (hstate.mpr ⟨hlast, hnone⟩)
        exact .inr (.inr hsome)
      · exact .inr (.inl hlast)
  · rintro (hblocks | hlast | ⟨j, hj, hfail⟩) hok
    · obtain ⟨hlast, hmade⟩ := hstate.mp hok
      have hall : ∀ k < n, blockState results k = .ok := by
        intro k hk
        rcases Nat.lt_or_eq_of_le (Nat.succ_le_of_lt hk) with hlt | heq
        · exact hblocks k hlt
        · subst heq
          exact hlast
      rw [happends hok]
      intro i hi
      rcases Nat.lt_or_ge i (firstAppend results n) with hlt | hge
      · exact (forall_results_iff results n).mpr hall i hlt
      · obtain ⟨j, rfl⟩ := Nat.exists_eq_add_of_le hge
        exact hmade j (Nat.lt_of_add_lt_add_left hi)
    · exact absurd (hstate.mp hok).1 hlast
    · exact absurd ((hstate.mp hok).2 j hj) hfail

/-- Two data blocks: the first append fails, and everything behind it succeeds. -/
theorem not_finish_reports :
    ¬ ∀ (E : TableEnv) (opt : Options) (es : List (Bytes × Bytes)) (results : ℕ → State),
      let done := ((new opt (ScriptedFile.mk results 0)).addAll E es).finish E
      done.state = .ok → ∀ i < done.file.appends, results i = .ok := by
  intro h
  have hfirst := h .sample {} [([97], List.replicate 4096 120), ([98], [120])]
    (fun i => if i = 0 then .ioError else .ok) (by decide +kernel) 0 (by decide +kernel)
  cases hfirst

end Tablebuilder
end Yubindb
