import Yubindb.Db.Compaction
import Yubindb.Db.CompactionDrop
import Yubindb.Db.StoredBlock
import Yubindb.Db.TableFilter

/-!
# The output of a compaction

`CompactionState` and `DoCompactionWork` with what it calls, in `src/db/db.h` and `src/db/db.cpp`, up to the
call of `LogAndApply`: no shutdown, and no memtable to write in between. The answers of `ShouldStopBefore`
and `IsBaseLevelForKey` are parameters. Nothing stands for an access outside `oupts` and for a use of a
builder behind its `delete`.
-/

namespace Yubindb

/-! ## The model -/

/-- `CompactionState::Output`. -/
structure Output where
  number : Nat
  fileSize : Nat := 0
  smallest : InternalKey := ⟨[]⟩
  largest : InternalKey := ⟨[]⟩
  deriving DecidableEq, Repr

/-- The description that `AddFile` makes of an output. -/
def Output.file (out : Output) : FileMate := ⟨out.number, out.fileSize, out.smallest, out.largest⟩

/-- A `Tablebuilder*`. -/
inductive BuilderPtr
  | null
  | live (builder : Tablebuilder StoredFile)
  | dangling

/-- Whether the pointer is `nullptr`. -/
@[simp] def BuilderPtr.isNull : BuilderPtr → Bool
  | .null => true
  | _ => false

/-- A call on a builder. -/
inductive BuilderCall
  | new (number : Nat)
  | add (key value : Bytes)
  | finish
  deriving DecidableEq, Repr

/-- `CompactionState`, with the counter of `NewFileNumber` and the calls on builders up to now. -/
structure CompactionState where
  nextFileNumber : Nat
  oupts : List Output := []
  builder : BuilderPtr := .null
  totalBytes : Nat := 0
  calls : List BuilderCall := []

/-- The states that the steps of a compaction return, by output; those of the builders are their own. -/
structure CompactionIo where
  input : State := .ok
  newWritableFile : Nat → State := fun _ => .ok
  sync : Nat → State := fun _ => .ok
  close : Nat → State := fun _ => .ok
  newIterator : Nat → State := fun _ => .ok

/-- What `DoCompactionWork` works with. -/
structure CompactionJob where
  env : TableEnv
  opts : Options
  comp : Compaction
  smallSnap : Nat
  shouldStopBefore : Nat → Bool
  isBaseLevelForKey : Nat → Bytes → Bool

namespace CompactionState

/-- The index of `current_output`. -/
def current (st : CompactionState) : Nat := st.oupts.length - 1

/-- `OpenCompactionOutputFile`. -/
def openCompactionOutputFile (opts : Options) (io : CompactionIo) (st : CompactionState) :
    State × CompactionState :=
  let number := st.nextFileNumber
  let st := { st with
    nextFileNumber := (number + 1) % 2 ^ 64
    oupts := st.oupts ++ [{ number }] }
  let s := io.newWritableFile st.current
  if s = .ok then
    (s, { st with builder := .live (.new opts ⟨[]⟩), calls := st.calls ++ [.new number] })
  else (s, st)

/-- `FinishCompactionOutputFile`. -/
def finishCompactionOutputFile (E : TableEnv) (io : CompactionIo) (st : CompactionState) :
    Option (State × CompactionState) :=
  match st.builder with
  | .live b =>
    let entriesnum := b.numEntries
    let (s, b, calls) :=
      if io.input = .ok then
        let b := b.finish E
        (b.state, b, st.calls ++ [.finish])
      else (io.input, b, st.calls)
    let s := if s = .ok then io.sync st.current else s
    let s := if s = .ok then io.close st.current else s
    let s := if s = .ok ∧ entriesnum > 0 then io.newIterator st.current else s
    -- `delete` leaves the pointer as it is
    some (s, { st with
      oupts := st.oupts.modify st.current fun out => { out with fileSize := b.offset }
      builder := .dangling
      totalBytes := st.totalBytes + b.offset
      calls })
  | _ => none

end CompactionState

namespace CompactionJob
open CompactionState
variable (job : CompactionJob) (io : CompactionIo)

/-- The part of the loop behind `ShouldStopBefore`. -/
def stopBefore (i : Nat) (st : CompactionState) : Option (State × CompactionState) :=
  if job.shouldStopBefore i = true ∧ st.builder.isNull = false then
    st.finishCompactionOutputFile job.env io
  else some (.ok, st)

/-- `Add`, with what the loop does around it. -/
def addEntry (key value : Bytes) (st : CompactionState) : Option (State × CompactionState) :=
  match st.builder with
  | .live b =>
    let added := b.add job.env key value
    let st := { st with
      oupts := st.oupts.modify st.current fun out =>
        { out with
          smallest := if b.numEntries = 0 then ⟨key⟩ else out.smallest
          largest := ⟨key⟩ }
      builder := .live added
      calls := st.calls ++ [.add key value] }
    if added.offset ≥ job.comp.maxOutputFileSize then st.finishCompactionOutputFile job.env io
    else some (.ok, st)
  | _ => none

/-- The branch of the loop for an entry that is not dropped. -/
def keepEntry (key value : Bytes) (st : CompactionState) : Option (State × CompactionState) :=
  if st.builder.isNull then
    let (s, st) := st.openCompactionOutputFile job.opts io
    if s = .ok then job.addEntry io key value st else some (s, st)
  else job.addEntry io key value st

/-- The body of the loop of `DoCompactionWork` for the `i`-th entry. -/
def turn (i : Nat) (ds : DropState) (st : CompactionState) (key value : Bytes) :
    Option (State × DropState × CompactionState) := do
  let (s, st) ← job.stopBefore io i st
  if s ≠ .ok then return (s, ds, st)
  let (drop, ds) ← ds.turn job.smallSnap (job.isBaseLevelForKey i) key
  if drop then return (.ok, ds, st)
  let (s, st) ← job.keepEntry io key value st
  return (s, ds, st)

/-- The loop of `DoCompactionWork`, from the `i`-th entry on. -/
def loop : Nat → DropState → CompactionState → List (Bytes × Bytes) →
    Option (State × CompactionState)
  | _, _, st, [] => some (.ok, st)
  | i, ds, st, (key, value) :: rest => do
    let (s, ds, st) ← job.turn io i ds st key value
    if s ≠ .ok then return (s, st)
    loop (i + 1) ds st rest

/-- The part of `DoCompactionWork` between the loop and `InstallCompactionResults`. -/
def finishLast (s : State) (st : CompactionState) : Option (State × CompactionState) := do
  let (s, st) ←
    if s = .ok ∧ st.builder.isNull = false then st.finishCompactionOutputFile job.env io
    else some (s, st)
  return (if s = .ok then io.input else s, st)

/-- The loop of `InstallCompactionResults` over the first outputs. -/
def addOutputs (oupts : List Output) (edit : VersionEdit) : Nat → Option VersionEdit
  | 0 => some edit
  | i + 1 => do
    let edit ← addOutputs oupts edit i
    let outs ← oupts[i]?
    return edit.addFile job.comp.level.succ outs.file

/-- `InstallCompactionResults`: the edit for `LogAndApply`. -/
def installCompactionResults (st : CompactionState) : Option VersionEdit :=
  job.addOutputs st.oupts (job.comp.addInputDeletions job.comp.edit) job.comp.level

/-- `DoCompactionWork` over the entries of the merged input: its `s` in front of `LogAndApply`, and the
edit if it gets there. -/
def doCompactionWork (ds : DropState) (st : CompactionState) (stream : List (Bytes × Bytes)) :
    Option (State × CompactionState × Option VersionEdit) := do
  let (s, st) ← job.loop io 0 ds st stream
  let (s, st) ← job.finishLast io s st
  if s = .ok then
    let edit ← job.installCompactionResults st
    return (s, st, some edit)
  else return (s, st, none)

/-! ## Complete outputs -/

end CompactionJob

/-- The calls on the builder of an output that gets these entries. -/
def builderCalls (out : Output) (es : List (Bytes × Bytes)) : List BuilderCall :=
  .new out.number :: es.map (fun e => .add e.1 e.2) ++ [.finish]

/-- The output has the first and the last key of its entries. -/
def Output.Records (out : Output) (es : List (Bytes × Bytes)) : Prop :=
  es.head?.map (fun e => ⟨e.1⟩) = some out.smallest ∧
    es.getLast?.map (fun e => ⟨e.1⟩) = some out.largest

namespace CompactionJob
open CompactionState Tablebuilder
variable (job : CompactionJob)

/-- The outputs hold the entries in order, each builder is finished once and then let alone, and the edit
adds the outputs and deletes the inputs. -/
structure Complete (entries : List (Bytes × Bytes)) (st : CompactionState) (edit : VersionEdit)
    (contents : List (List (Bytes × Bytes))) : Prop where
  calls : st.calls = (List.zipWith builderCalls st.oupts contents).flatten
  entries : contents.flatten = entries
  keys : List.Forall₂ Output.Records st.oupts contents
  added : edit.newFiles =
    job.comp.edit.newFiles ++ st.oupts.map fun out => (job.comp.level.succ, out.file)
  deleted0 : ∀ p ∈ job.comp.inputs0, edit.Deletes job.comp.level.castSucc p.file.num
  deleted1 : ∀ p ∈ job.comp.inputs1, edit.Deletes job.comp.level.succ p.file.num

/-- The entries of the input, from the `i`-th on, that are not dropped. -/
def kept (i : Nat) (ds : DropState) (stream : List (Bytes × Bytes)) :
    Option (List (Bytes × Bytes)) :=
  ds.kept job.smallSnap job.isBaseLevelForKey i stream

/-- With steps that succeed, `DoCompactionWork` comes to the call of `LogAndApply`, with a complete
output. -/
def CompletesOutput (ds : DropState) (nextFileNumber : Nat) (stream : List (Bytes × Bytes)) : Prop :=
  ∃ st edit entries contents,
    job.doCompactionWork {} ds { nextFileNumber } stream = some (.ok, st, some edit) ∧
      job.kept 0 ds stream = some entries ∧ job.Complete entries st edit contents

/-- The builder behind these entries. -/
def builderOf (es : List (Bytes × Bytes)) : Tablebuilder StoredFile :=
  (new job.opts ⟨[]⟩).addAll job.env es

/-- Nothing is kept at level 0, or something at level 1, where it goes into one table: the size stays
below the limit, and `ShouldStopBefore` does not answer yes behind the first entry that is kept. -/
def OneOutput (ds : DropState) (stream : List (Bytes × Bytes)) : Prop :=
  ∃ entries, job.kept 0 ds stream = some entries ∧
    (entries = [] ∧ job.comp.level.val = 0 ∨
      entries ≠ [] ∧ job.comp.level.val = 1 ∧
        (job.builderOf entries).offset < job.comp.maxOutputFileSize ∧
        ∀ k < stream.length, job.shouldStopBefore k = true → job.kept 0 ds (stream.take k) = some [])

/-! ## Sizes -/

end CompactionJob

namespace Tablebuilder
variable {F : Type} [AppendFile F] {E : TableEnv} {b : Tablebuilder F}

theorem offset_le_flush : b.offset ≤ (b.flush E).offset := by
  cases hempty : b.dataBlock.empty with
  | true => rw [flush_of_empty hempty]
  | false => exact (offset_flush hempty).2.1

theorem offset_le_add (key val : Bytes) : b.offset ≤ (b.add E key val).offset := by
  rw [add_eq, flushIfFull]
  split
  · exact offset_added.symm.le.trans offset_le_flush
  · exact offset_added.symm.le

theorem offset_le_addAll (es : List (Bytes × Bytes)) : b.offset ≤ (b.addAll E es).offset := by
  induction es generalizing b with
  | nil => exact le_rfl
  | cons e es ih => exact (offset_le_add e.1 e.2).trans ih

theorem numEntries_add (key val : Bytes) : (b.add E key val).numEntries = b.numEntries + 1 := by
  have hadded : (b.added key val).numEntries = b.numEntries + 1 := by
    rw [added, addIndexEntry]
    split <;> rfl
  rw [add_eq, flushIfFull, ← hadded]
  split
  · cases hempty : (b.added key val).dataBlock.empty with
    | true => rw [flush_of_empty hempty]
    | false =>
      obtain ⟨size, state, file, offset, -, hframe⟩ :=
        @writeBlock_frame F _ E (b.added key val) (b.added key val).dataBlock
      rw [flush, if_neg (by rw [hempty]; exact Bool.false_ne_true), hframe]
  · rfl

theorem numEntries_addAll (es : List (Bytes × Bytes)) :
    (b.addAll E es).numEntries = b.numEntries + es.length := by
  induction es generalizing b with
  | nil => rfl
  | cons e es ih =>
    rw [addAll_cons, ih, numEntries_add, List.length_cons]
    omega

theorem addAll_append (es es' : List (Bytes × Bytes)) :
    b.addAll E (es ++ es') = (b.addAll E es).addAll E es' := List.foldl_append

end Tablebuilder

namespace CompactionJob
open CompactionState Tablebuilder
variable {job : CompactionJob} {n i : Nat} {ds : DropState} {st : CompactionState}
  {es rest : List (Bytes × Bytes)} {e : Bytes × Bytes}

theorem builderOf_append (es es' : List (Bytes × Bytes)) :
    job.builderOf (es ++ es') = (job.builderOf es).addAll job.env es' := addAll_append es es'

theorem state_builderOf : (job.builderOf es).state = .ok := state_addAll rfl es

theorem numEntries_builderOf : (job.builderOf es).numEntries = es.length :=
  (numEntries_addAll es).trans (Nat.zero_add _)

/-! ## One table -/

variable (job n) in
/-- The state when these entries have gone into one table that is still open, or when there was none. -/
def writing : List (Bytes × Bytes) → CompactionState
  | [] => { nextFileNumber := n }
  | e :: es =>
    { nextFileNumber := (n + 1) % 2 ^ 64
      oupts := [⟨n, 0, ⟨e.1⟩, ⟨((e :: es).getLast (List.cons_ne_nil e es)).1⟩⟩]
      builder := .live (job.builderOf (e :: es))
      calls := .new n :: (e :: es).map fun e => .add e.1 e.2 }

variable (job n) in
/-- The state when that table has been finished. -/
def finished (es : List (Bytes × Bytes)) : CompactionState :=
  let st := job.writing n es
  let size := ((job.builderOf es).finish job.env).offset
  { st with
    oupts := st.oupts.map fun out => { out with fileSize := size }
    builder := .dangling
    totalBytes := size
    calls := st.calls ++ [.finish] }

theorem builder_writing (hes : es ≠ []) : (job.writing n es).builder = .live (job.builderOf es) := by
  cases es with
  | nil => exact absurd rfl hes
  | cons e es => rfl

theorem finish_writing (hes : es ≠ []) :
    (job.writing n es).finishCompactionOutputFile job.env {} = some (.ok, job.finished n es) := by
  have hstate : ((job.builderOf es).finish job.env).state = .ok := state_finish state_builderOf
  rw [finishCompactionOutputFile, builder_writing hes]
  cases es with
  | nil => exact absurd rfl hes
  | cons e es =>
    simp only [hstate]
    simp [finished, writing, current]

/-- `Add` into an open table, and the check of its size. -/
theorem addEntry_eq (hlive : st.builder = .live (job.builderOf es))
    (hadd : { st with
        oupts := st.oupts.modify st.current fun out =>
          { out with smallest := if es.length = 0 then ⟨e.1⟩ else out.smallest, largest := ⟨e.1⟩ }
        builder := .live (job.builderOf (es ++ [e]))
        calls := st.calls ++ [.add e.1 e.2] } = job.writing n (es ++ [e])) :
    job.addEntry {} e.1 e.2 st =
      some (.ok, if job.comp.maxOutputFileSize ≤ (job.builderOf (es ++ [e])).offset then
        job.finished n (es ++ [e]) else job.writing n (es ++ [e])) := by
  have hbuilder : (job.builderOf es).add job.env e.1 e.2 = job.builderOf (es ++ [e]) :=
    (builderOf_append es [e]).symm
  rw [addEntry, hlive]
  simp only [hbuilder, numEntries_builderOf, hadd]
  rw [finish_writing (List.append_ne_nil_of_right_ne_nil _ (List.cons_ne_nil _ _))]
  split <;> rfl

/-- An entry that is kept goes into the open table, or into a new one. -/
theorem keepEntry_writing :
    job.keepEntry {} e.1 e.2 (job.writing n es) =
      some (.ok, if job.comp.maxOutputFileSize ≤ (job.builderOf (es ++ [e])).offset then
        job.finished n (es ++ [e]) else job.writing n (es ++ [e])) := by
  cases es with
  | nil =>
    rw [keepEntry]
    exact @addEntry_eq job n ((job.writing n []).openCompactionOutputFile job.opts {}).2 [] e rfl rfl
  | cons a es =>
    refine @addEntry_eq job n (job.writing n (a :: es)) (a :: es) e rfl ?_
    simp [writing, current]

theorem stopBefore_writing :
    job.stopBefore {} i (job.writing n es) =
      some (.ok, if job.shouldStopBefore i = true ∧ es ≠ [] then job.finished n es
        else job.writing n es) := by
  rw [stopBefore]
  cases es with
  | nil => simp [writing]
  | cons a es =>
    cases job.shouldStopBefore i with
    | false => rfl
    | true => exact finish_writing (List.cons_ne_nil a es)

/-! ## Behind a finished table -/

/-- Once a builder has been deleted, a turn uses it or leaves it where it is. -/
theorem turn_of_dangling (hst : st.builder = .dangling) {r : State × DropState × CompactionState}
    (h : job.turn {} i ds st e.1 e.2 = some r) : r.1 = .ok ∧ r.2.2.builder = .dangling := by
  rw [turn, stopBefore, hst] at h
  cases hstop : job.shouldStopBefore i with
  | true => simp [hstop, finishCompactionOutputFile, hst] at h
  | false =>
    cases hturn : ds.turn job.smallSnap (job.isBaseLevelForKey i) e.1 with
    | none => simp [hstop, hturn] at h
    | some next =>
      obtain ⟨drop, ds'⟩ := next
      cases drop with
      | true =>
        obtain rfl : r = (.ok, ds', st) := by simpa [hstop, hturn] using h.symm
        exact ⟨rfl, hst⟩
      | false => simp [hstop, hturn, keepEntry, addEntry, hst] at h

theorem loop_of_dangling (hst : st.builder = .dangling) {r : State × CompactionState}
    (h : job.loop {} i ds st rest = some r) : r.1 = .ok ∧ r.2.builder = .dangling := by
  induction rest generalizing i ds st with
  | nil =>
    cases h
    exact ⟨rfl, hst⟩
  | cons e rest ih =>
    obtain ⟨⟨s, ds', st'⟩, hturn, h⟩ := Option.bind_eq_some_iff.mp h
    obtain ⟨rfl, hst'⟩ : s = .ok ∧ st'.builder = .dangling := turn_of_dangling hst hturn
    exact ih hst' h

/-- The builder is used once more behind the loop. -/
theorem doCompactionWork_eq_none
    (h : ∀ r, job.loop {} 0 ds st rest = some r → r.1 = .ok ∧ r.2.builder = .dangling) :
    job.doCompactionWork {} ds st rest = none := by
  rw [doCompactionWork]
  cases hloop : job.loop {} 0 ds st rest with
  | none => rfl
  | some r =>
    obtain ⟨s, st'⟩ := r
    obtain ⟨rfl, hdangling⟩ : s = .ok ∧ st'.builder = .dangling := h _ hloop
    simp [finishLast, finishCompactionOutputFile, hdangling]

/-! ## The entries of the table -/

variable (job) in
/-- What is in the table in the end, unless it is finished on the way. -/
def uncut : Nat → DropState → List (Bytes × Bytes) → List (Bytes × Bytes) →
    Option (List (Bytes × Bytes))
  | _, _, es, [] => some es
  | i, ds, es, e :: rest =>
    if job.shouldStopBefore i = true ∧ es ≠ [] then none
    else do
      let (drop, ds) ← ds.turn job.smallSnap (job.isBaseLevelForKey i) e.1
      if drop then uncut (i + 1) ds es rest
      else if job.comp.maxOutputFileSize ≤ (job.builderOf (es ++ [e])).offset then none
      else uncut (i + 1) ds (es ++ [e]) rest

/-- A turn at an open table. -/
theorem turn_writing (hcut : ¬ (job.shouldStopBefore i = true ∧ es ≠ [])) :
    job.turn {} i ds (job.writing n es) e.1 e.2 =
      (ds.turn job.smallSnap (job.isBaseLevelForKey i) e.1).map fun (drop, ds) =>
        (.ok, ds, if drop then job.writing n es
          else if job.comp.maxOutputFileSize ≤ (job.builderOf (es ++ [e])).offset then
            job.finished n (es ++ [e])
          else job.writing n (es ++ [e])) := by
  rw [turn, stopBefore_writing, if_neg hcut]
  cases hturn : ds.turn job.smallSnap (job.isBaseLevelForKey i) e.1 with
  | none => rfl
  | some next =>
    obtain ⟨drop, ds'⟩ := next
    cases drop with
    | true => rfl
    | false => simp [keepEntry_writing]

/-- A turn that `ShouldStopBefore` cuts short. -/
theorem turn_cut (hcut : job.shouldStopBefore i = true ∧ es ≠ [])
    {r : State × DropState × CompactionState}
    (h : job.turn {} i ds (job.writing n es) e.1 e.2 = some r) :
    r.1 = .ok ∧ r.2.2.builder = .dangling := by
  rw [turn, stopBefore_writing, if_pos hcut] at h
  cases hturn : ds.turn job.smallSnap (job.isBaseLevelForKey i) e.1 with
  | none => simp [hturn] at h
  | some next =>
    obtain ⟨drop, ds'⟩ := next
    cases drop with
    | true =>
      obtain rfl : r = (.ok, ds', job.finished n es) := by simpa [hturn] using h.symm
      exact ⟨rfl, rfl⟩
    | false => simp [hturn, keepEntry, addEntry, finished] at h

/-- The loop fills the table, or cuts it and deletes its builder. -/
theorem loop_writing :
    (∃ es', job.uncut i ds es rest = some es' ∧
      job.loop {} i ds (job.writing n es) rest = some (.ok, job.writing n es')) ∨
    job.uncut i ds es rest = none ∧
      ∀ r, job.loop {} i ds (job.writing n es) rest = some r → r.1 = .ok ∧ r.2.builder = .dangling := by
  induction rest generalizing i ds es with
  | nil => exact .inl ⟨es, rfl, rfl⟩
  | cons e rest ih =>
    rw [uncut, loop]
    by_cases hcut : job.shouldStopBefore i = true ∧ es ≠ []
    · refine .inr ⟨if_pos hcut, fun r h => ?_⟩
      obtain ⟨⟨s, ds', st'⟩, hturn, h⟩ := Option.bind_eq_some_iff.mp h
      obtain ⟨rfl, hst'⟩ : s = .ok ∧ st'.builder = .dangling := turn_cut hcut hturn
      exact loop_of_dangling hst' h
    · rw [if_neg hcut, turn_writing hcut]
      cases hturn : ds.turn job.smallSnap (job.isBaseLevelForKey i) e.1 with
      | none => exact .inr ⟨rfl, fun r h => absurd h (Option.some_ne_none r).symm⟩
      | some next =>
        obtain ⟨drop, ds'⟩ := next
        cases drop with
        | true => exact ih
        | false =>
          by_cases hsize : job.comp.maxOutputFileSize ≤ (job.builderOf (es ++ [e])).offset
          · simp only [Option.map_some, Option.bind_eq_bind, Option.bind_some, if_pos hsize]
            exact .inr ⟨rfl, fun r h => loop_of_dangling rfl h⟩
          · simp only [Option.map_some, Option.bind_eq_bind, Option.bind_some, if_neg hsize]
            exact ih

theorem kept_cons : job.kept i ds (e :: rest) =
    (ds.turn job.smallSnap (job.isBaseLevelForKey i) e.1).bind fun next =>
      (job.kept (i + 1) next.2 rest).map fun es => if next.1 then es else e :: es := by
  rw [kept, DropState.kept]
  cases ds.turn job.smallSnap (job.isBaseLevelForKey i) e.1 with
  | none => rfl
  | some next =>
    dsimp only [kept, Option.bind_eq_bind, Option.bind_some]
    cases DropState.kept job.smallSnap job.isBaseLevelForKey (i + 1) next.2 rest <;> rfl

/-- The answers of `ShouldStopBefore` by what is in the table: to the first entry, and behind it. -/
theorem forall_stop_cons {p : Nat → Prop} {len : Nat} :
    (∀ k < len + 1, job.shouldStopBefore (i + k) = true → p k) ↔
      (job.shouldStopBefore i = true → p 0) ∧
        ∀ k < len, job.shouldStopBefore (i + 1 + k) = true → p (k + 1) := by
  constructor
  · intro h
    refine ⟨h 0 (Nat.succ_pos len), fun k hk hstop => h (k + 1) (Nat.succ_lt_succ hk) ?_⟩
    rwa [Nat.add_assoc, Nat.add_comm 1 k] at hstop
  · rintro ⟨hzero, hsucc⟩ k hk hstop
    cases k with
    | zero => exact hzero hstop
    | succ k =>
      refine hsucc k (Nat.lt_of_succ_lt_succ hk) ?_
      rwa [Nat.add_assoc, Nat.add_comm 1 k]

/-- The table ends with all entries that are kept when nothing cuts it. -/
theorem uncut_eq_some {es' : List (Bytes × Bytes)} :
    job.uncut i ds es rest = some es' ↔ ∃ entries, job.kept i ds rest = some entries ∧
      es' = es ++ entries ∧
      (entries ≠ [] → (job.builderOf es').offset < job.comp.maxOutputFileSize) ∧
      ∀ k < rest.length, job.shouldStopBefore (i + k) = true →
        es = [] ∧ job.kept i ds (rest.take k) = some [] := by
  induction rest generalizing i ds es with
  | nil =>
    rw [uncut, Option.some.injEq]
    constructor
    · rintro rfl
      exact ⟨[], rfl, (List.append_nil es).symm, fun h => absurd rfl h, nofun⟩
    · rintro ⟨entries, hkept, rfl, -⟩
      obtain rfl : [] = entries := Option.some.inj hkept
      exact (List.append_nil es).symm
  | cons e rest ih =>
    rw [uncut, kept_cons, List.length_cons, forall_stop_cons]
    cases hturn : ds.turn job.smallSnap (job.isBaseLevelForKey i) e.1 with
    | none => simp
    | some next =>
      obtain ⟨drop, ds'⟩ := next
      have hzero : job.kept i ds ((e :: rest).take 0) = some [] := rfl
      have hsucc (k : Nat) : job.kept i ds ((e :: rest).take (k + 1)) = some [] ↔
          drop = true ∧ job.kept (i + 1) ds' (rest.take k) = some [] := by
        rw [List.take_succ_cons, kept_cons, hturn]
        cases drop <;> simp
      simp only [hzero, hsucc, Option.bind_eq_bind, Option.bind_some, and_true]
      by_cases hcut : job.shouldStopBefore i = true ∧ es ≠ []
      · simp only [if_pos hcut]
        refine ⟨nofun, fun ⟨_, _, _, _, hstop, _⟩ => absurd (hstop hcut.1) hcut.2⟩
      · rw [if_neg hcut]
        have hfirst : job.shouldStopBefore i = true → es = [] := fun h => by_contra fun hne => hcut ⟨h, hne⟩
        cases drop with
        | true =>
          rw [if_pos rfl, ih]
          constructor
          · rintro ⟨entries, hkept, rfl, hsize, hstop⟩
            refine ⟨entries, by rw [hkept]; rfl, rfl, hsize, hfirst, fun k hk h => ?_⟩
            exact ⟨(hstop k hk h).1, rfl, (hstop k hk h).2⟩
          · rintro ⟨entries, hkept, rfl, hsize, -, hstop⟩
            have hkept : job.kept (i + 1) ds' rest = some entries := by simpa using hkept
            refine ⟨entries, hkept, rfl, hsize, fun k hk h => ?_⟩
            exact ⟨(hstop k hk h).1, (hstop k hk h).2.2⟩
        | false =>
          rw [if_neg Bool.false_ne_true]
          constructor
          · intro h
            split at h
            · cases h
            · next hle =>
              obtain ⟨entries, hkept, rfl, hsize, hstop⟩ := ih.mp h
              refine ⟨e :: entries, by rw [hkept]; rfl, by simp, fun _ => ?_, hfirst, fun k hk h => ?_⟩
              · cases entries with
                | nil => simpa using hle
                | cons a entries => exact hsize (List.cons_ne_nil a entries)
              · exact absurd (hstop k hk h).1 (by simp)
          · rintro ⟨entries, hkept, rfl, hsize, -, hstop⟩
            obtain ⟨entries, hrest, rfl⟩ := Option.map_eq_some_iff.mp hkept
            have hassoc : (es ++ if false = true then entries else e :: entries) =
                es ++ [e] ++ entries := by simp
            have hlt := hsize (List.cons_ne_nil e entries)
            rw [hassoc] at ih hlt ⊢
            have hle : (job.builderOf (es ++ [e])).offset ≤
                (job.builderOf (es ++ [e] ++ entries)).offset := by
              rw [builderOf_append (es ++ [e]) entries]
              exact offset_le_addAll entries
            rw [if_neg (not_le.mpr (hle.trans_lt hlt))]
            refine ih.mpr ⟨entries, hrest, rfl, fun _ => hlt, fun k hk h => ?_⟩
            exact absurd (hstop k hk h).2.1 Bool.false_ne_true

/-! ## The edit -/

theorem addOutputs_eq (oupts : List Output) (edit : VersionEdit) (k : Nat) :
    job.addOutputs oupts edit k =
      if k ≤ oupts.length then
        some { edit with newFiles :=
          edit.newFiles ++ (oupts.take k).map fun out => (job.comp.level.succ, out.file) }
      else none := by
  induction k with
  | zero => simp [addOutputs]
  | succ k ih =>
    rw [addOutputs, ih]
    by_cases hk : k < oupts.length
    · rw [if_pos hk.le, if_pos (Nat.succ_le_of_lt hk), List.take_succ_eq_append_getElem hk,
        List.getElem?_eq_getElem hk]
      simp only [Option.bind_eq_bind, Option.bind_some, Option.pure_def, VersionEdit.addFile,
        List.map_append, List.map_cons, List.map_nil, List.append_assoc]
    · rw [if_neg (by omega : ¬ k + 1 ≤ oupts.length)]
      split <;> simp [List.getElem?_eq_none (not_lt.mp hk)]

end CompactionJob

namespace Compaction
variable {c : Compaction} {edit : VersionEdit} {files : List FilePtr} {level l : Level} {num : Nat}

/-- What the two loops of `AddInputDeletions` do. -/
theorem foldl_deleteFile :
    (files.foldl (fun edit p => edit.deleteFile level p.file.num) edit).newFiles = edit.newFiles ∧
      ((files.foldl (fun edit p => edit.deleteFile level p.file.num) edit).Deletes l num ↔
        edit.Deletes l num ∨ l = level ∧ ∃ p ∈ files, p.file.num = num) := by
  induction files generalizing edit with
  | nil => simp
  | cons p files ih =>
    obtain ⟨hnew, hdel⟩ := @ih (edit.deleteFile level p.file.num)
    refine ⟨hnew, ?_⟩
    rw [List.foldl_cons, hdel]
    have hinsert : (edit.deleteFile level p.file.num).Deletes l num ↔
        (level, p.file.num) = (l, num) ∨ edit.Deletes l num := by
      rw [VersionEdit.Deletes, VersionEdit.deleteFile, Std.ExtTreeSet.mem_insert,
        Std.compare_eq_iff_eq]
      rfl
    rw [hinsert, Prod.mk.injEq, @eq_comm _ level l]
    simp only [List.mem_cons, exists_eq_or_imp]
    rw [and_or_left, or_assoc, or_left_comm]

theorem newFiles_addInputDeletions : (c.addInputDeletions edit).newFiles = edit.newFiles :=
  (@foldl_deleteFile _ c.inputs1 c.level.succ 0 0).1.trans
    (@foldl_deleteFile _ c.inputs0 c.level.castSucc 0 0).1

/-- `AddInputDeletions` deletes every input. -/
theorem deletes_addInputDeletions :
    (∀ p ∈ c.inputs0, (c.addInputDeletions edit).Deletes c.level.castSucc p.file.num) ∧
      ∀ p ∈ c.inputs1, (c.addInputDeletions edit).Deletes c.level.succ p.file.num :=
  ⟨fun p hp => foldl_deleteFile.2.mpr (.inl (foldl_deleteFile.2.mpr (.inr ⟨rfl, p, hp, rfl⟩))),
    fun p hp => foldl_deleteFile.2.mpr (.inr ⟨rfl, p, hp, rfl⟩)⟩

end Compaction

namespace CompactionJob
open CompactionState Tablebuilder
variable {job : CompactionJob} {n i : Nat} {ds : DropState} {st : CompactionState}
  {es stream : List (Bytes × Bytes)}

/-- The edit has every output when the level of the inputs is the number of the outputs. -/
theorem installCompactionResults_complete :
    (∃ edit, job.installCompactionResults st = some edit ∧
      edit.newFiles =
        job.comp.edit.newFiles ++ st.oupts.map fun out => (job.comp.level.succ, out.file)) ↔
      job.comp.level.val = st.oupts.length := by
  rw [installCompactionResults, addOutputs_eq, Compaction.newFiles_addInputDeletions]
  constructor
  · rintro ⟨edit, hedit, hnew⟩
    split at hedit
    · next hle =>
      cases hedit
      have hlen := congrArg List.length (List.append_cancel_left hnew)
      rw [List.length_map, List.length_map, List.length_take] at hlen
      omega
    · cases hedit
  · intro hlevel
    refine ⟨_, if_pos hlevel.le, ?_⟩
    rw [hlevel, List.take_length]

theorem installCompactionResults_deletes {edit : VersionEdit}
    (h : job.installCompactionResults st = some edit) :
    (∀ p ∈ job.comp.inputs0, edit.Deletes job.comp.level.castSucc p.file.num) ∧
      ∀ p ∈ job.comp.inputs1, edit.Deletes job.comp.level.succ p.file.num := by
  rw [installCompactionResults, addOutputs_eq] at h
  split at h
  · cases h
    exact Compaction.deletes_addInputDeletions
  · cases h

/-! ## Complete output -/

/-- The output of one table, or of none. -/
theorem exists_contents :
    ∃ st contents, job.finishLast {} .ok (job.writing n es) = some (.ok, st) ∧
      st.oupts.length = (if es = [] then 0 else 1) ∧
      st.calls = (List.zipWith builderCalls st.oupts contents).flatten ∧
      contents.flatten = es ∧ List.Forall₂ Output.Records st.oupts contents := by
  cases es with
  | nil => exact ⟨job.writing n [], [], rfl, rfl, rfl, rfl, .nil⟩
  | cons e es =>
    refine ⟨job.finished n (e :: es), [e :: es], ?_, rfl, ?_, by simp, ?_⟩
    · rw [finishLast, if_pos ⟨rfl, rfl⟩, finish_writing (List.cons_ne_nil e es)]
      rfl
    · simp [finished, writing, builderCalls]
    · refine .cons ⟨rfl, ?_⟩ .nil
      rw [List.getLast?_eq_getLast_of_ne_nil (List.cons_ne_nil e es)]
      rfl

theorem kept_take (h : job.kept i ds stream = some []) (k : Nat) :
    job.kept i ds (stream.take k) = some [] := by
  induction stream generalizing i ds k with
  | nil => rwa [List.take_nil]
  | cons e rest ih =>
    cases k with
    | zero => rfl
    | succ k =>
      rw [kept_cons] at h
      obtain ⟨⟨drop, ds'⟩, hturn, h⟩ := Option.bind_eq_some_iff.mp h
      obtain ⟨entries, hrest, h⟩ := Option.map_eq_some_iff.mp h
      cases drop with
      | false => cases h
      | true =>
        obtain rfl : entries = [] := h
        rw [List.take_succ_cons, kept_cons, hturn, Option.bind_some, ih hrest k]
        rfl

theorem uncut_eq_some_of_oneOutput (h : job.OneOutput ds stream) :
    ∃ es, job.uncut 0 ds [] stream = some es := by
  obtain ⟨entries, hkept, ⟨rfl, -⟩ | ⟨-, -, hsize, hstop⟩⟩ := h
  · exact ⟨[], uncut_eq_some.mpr ⟨[], hkept, rfl, fun h => absurd rfl h,
      fun k _ _ => ⟨rfl, kept_take hkept k⟩⟩⟩
  · refine ⟨entries, uncut_eq_some.mpr ⟨entries, hkept, rfl, fun _ => hsize, fun k hk h => ?_⟩⟩
    exact ⟨rfl, hstop k hk (Nat.zero_add k ▸ h)⟩

/-- The condition, where nothing cuts the table. -/
theorem oneOutput_iff_of_uncut (h : job.uncut 0 ds [] stream = some es) :
    job.OneOutput ds stream ↔ job.comp.level.val = if es = [] then 0 else 1 := by
  obtain ⟨_, hkept, rfl, hsize, hstop⟩ := uncut_eq_some.mp h
  constructor
  · rintro ⟨entries, hkept', hcond⟩
    obtain rfl : es = entries := Option.some.inj (hkept.symm.trans hkept')
    rcases hcond with ⟨rfl, hlevel⟩ | ⟨hne, hlevel, -⟩
    · exact hlevel
    · rwa [if_neg hne]
  · intro hlevel
    refine ⟨es, hkept, ?_⟩
    by_cases hne : es = []
    · exact .inl ⟨hne, by rwa [if_pos hne] at hlevel⟩
    · refine .inr ⟨hne, by rwa [if_neg hne] at hlevel, hsize hne, fun k hk h => ?_⟩
      exact (hstop k hk (by rwa [Nat.zero_add])).2

/-- A table that is cut leaves its builder to be used once more. -/
theorem not_completesOutput_of_uncut (h : job.uncut 0 ds [] stream = none) :
    ¬ job.CompletesOutput ds n stream := by
  rintro ⟨st, edit, entries, contents, hdone, -⟩
  rcases @loop_writing job n 0 ds [] stream with ⟨es, huncut, -⟩ | ⟨-, hloop⟩
  · rw [h] at huncut
    cases huncut
  · have hstart : job.writing n [] = { nextFileNumber := n } := rfl
    rw [hstart] at hloop
    rw [doCompactionWork_eq_none hloop] at hdone
    cases hdone

/-- The output is complete when there is one table of level 1, or none of level 0. -/
theorem completesOutput_iff : job.CompletesOutput ds n stream ↔ job.OneOutput ds stream := by
  rcases @loop_writing job n 0 ds [] stream with ⟨es, huncut, hloop⟩ | ⟨huncut, -⟩
  · obtain ⟨st, contents, hlast, hlen, hcalls, hcontents, hkeys⟩ := @exists_contents job n es
    have hwork : job.doCompactionWork {} ds { nextFileNumber := n } stream =
        (job.installCompactionResults st).map fun edit => (.ok, st, some edit) := by
      have hstart : job.writing n [] = { nextFileNumber := n } := rfl
      rw [doCompactionWork, ← hstart, hloop]
      simp only [Option.bind_eq_bind, Option.bind_some, hlast]
      cases job.installCompactionResults st <;> rfl
    have hentries : job.kept 0 ds stream = some es := by
      obtain ⟨_, hkept, rfl, -⟩ := uncut_eq_some.mp huncut
      exact hkept
    rw [oneOutput_iff_of_uncut huncut, ← hlen, ← installCompactionResults_complete]
    constructor
    · rintro ⟨st', edit, entries, contents', hdone, -, hcomplete⟩
      rw [hwork] at hdone
      obtain ⟨edit', hinstall, hsame⟩ := Option.map_eq_some_iff.mp hdone
      obtain ⟨rfl, rfl⟩ : st = st' ∧ edit' = edit := by simpa using hsame
      exact ⟨edit', hinstall, hcomplete.added⟩
    · rintro ⟨edit, hinstall, hadded⟩
      refine ⟨st, edit, es, contents, by rw [hwork, hinstall]; rfl, hentries, ?_⟩
      obtain ⟨hdeleted0, hdeleted1⟩ := installCompactionResults_deletes hinstall
      exact ⟨hcalls, hcontents, hkeys, hadded, hdeleted0, hdeleted1⟩
  · refine ⟨fun h => absurd h (not_completesOutput_of_uncut huncut), fun h => ?_⟩
    obtain ⟨es, hsome⟩ := uncut_eq_some_of_oneOutput h
    rw [huncut] at hsome
    cases hsome

/-- A compaction of one file of level 1 and one of level 2, whose second entry is to start a new
output. -/
def stoppingJob : CompactionJob where
  env := .sample
  opts := {}
  comp := {
    level := ⟨1, by decide⟩
    maxOutputFileSize := 2 * 1024 * 1024
    inputs0 := [⟨1, 4, 90, .new [97, 1, 2, 3, 4, 5, 6, 7] 9 .value,
      .new [98, 1, 2, 3, 4, 5, 6, 7] 4 .deletion⟩]
    inputs1 := [⟨2, 3, 80, .new [97, 1, 2, 3, 4, 5, 6, 7] 5 .deletion,
      .new [97, 1, 2, 3, 4, 5, 6, 7] 3 .value⟩] }
  smallSnap := 0
  shouldStopBefore i := i = 1
  isBaseLevelForKey _ _ := false

theorem not_completesOutput :
    ¬ stoppingJob.CompletesOutput ⟨⟨[], 0, 0⟩, [], false, kMaxSequenceNumber⟩ 7
      (mergedStream.map Entry.item) :=
  not_completesOutput_of_uncut (by decide +kernel)

end CompactionJob
end Yubindb
