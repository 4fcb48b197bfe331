import Yubindb.Db.SessionSteps
import Yubindb.Util.Schedule

/-!
# Scheduling the background work

`DBImpl::MaybeCompaction`, `DBImpl::BackgroundCall`, `DBImpl::BackgroundCompaction`,
`DBImpl::CompactMemTable` and `DBImpl::~DBImpl` in `src/db/db.cpp`, on `PosixEnv::Schedule`. A step is a
section that is meant to run under the mutex, so that sections exclude each other. What `PickCompaction`, `BuildTable` and `LogAndApply` make of the versions is
up to the step.
-/

namespace Yubindb

namespace PosixEnv
variable {W : Type*}

/-- A whole call of `Schedule`. -/
def schedule (work : W) (s : PosixEnv W) : PosixEnv W :=
  let item : WorkItem W := ⟨s.scheduled.length, work⟩
  { s with
    startedBackgroundThread := true
    backgroundWorkQueue := s.backgroundWorkQueue ++ [item]
    threads := s.threads ++ if s.startedBackgroundThread then [] else [.new item]
    scheduled := s.scheduled ++ [item] }

/-- The five steps of a thread that calls `Schedule` are one call. -/
theorem runAll_schedule {body : WorkItem W → List W} {s : PosixEnv W} {work : W} {calls : List W}
    {l r : List (WorkThread W)} (hthreads : s.threads = l ++ .outside (work :: calls) :: r)
    (hfree : s.locked = false) :
    runAll (step body) (List.replicate 5 l.length) s =
      some (({ s with threads := l ++ .outside calls :: r } : PosixEnv W).schedule work) := by
  obtain ⟨started, queue, locked, threads, scheduled, executed⟩ := s
  subst hthreads hfree
  cases started <;> simp [runAll, step, schedule]

/-- The thread that `Schedule` has started begins its work. -/
def begin? (s : PosixEnv W) : Option (PosixEnv W) :=
  match s.threads[0]? with
  | some (WorkThread.new _) => s.step (fun _ => []) 0
  | _ => none

end PosixEnv

/-- Where the thread in `BackgroundCall` has released the mutex. -/
inductive CallPc
  /-- In `BuildTable`. -/
  | building
  /-- In the `LogAndApply` of `CompactMemTable`. -/
  | flushing
  /-- In `DeleteObsoleteFiles`. -/
  | deleting
  /-- In the `LogAndApply` of `BackgroundCompaction`. -/
  | moving
  deriving DecidableEq, Repr

/-- Where `~DBImpl` stands. -/
inductive ClosePc
  | no
  /-- It waits for `background_work_finished_signal`. -/
  | waiting
  /-- The signal has come. -/
  | woken
  | done
  deriving DecidableEq, Repr

/-- The fields of `DBImpl` that decide about background work, and who runs and waits. -/
structure Scheduler where
  db : DBImpl
  env : PosixEnv Unit := { threads := [] }
  backgroundCompaction : Bool := false
  shuttingDown : Bool := false
  call : Option CallPc := none
  /-- Whether a writer waits for `background_work_finished_signal`. -/
  writerWaits : Bool := false
  closing : ClosePc := .no

/-- The steps, with what the environment contributes to them. -/
inductive SchedulerAction
  /-- A turn of the loop of `MakeRoomForwrite`. -/
  | turn (create : Nat → State)
  /-- A batch goes into the memtable. -/
  | write (mem : Memtable) (lastSequence : Nat)
  /-- `Get` has looked into the tables. -/
  | get
  /-- `BackgroundCall` begins; what `PickCompaction` finds and leaves. -/
  | begin_ (trivialMove : Bool) (picked : VersionSet)
  | built (result : State)
  | applied (result : State) (versions : VersionSet)
  | deleted
  /-- `~DBImpl` is called. -/
  | close
  /-- `~DBImpl` wakes up. -/
  | wake
  /-- A writer wakes up without a signal. -/
  | spurious

namespace Scheduler

/-- `MaybeCompaction`. -/
def maybeCompaction (s : Scheduler) : Scheduler :=
  if s.backgroundCompaction then s
  else if s.shuttingDown then s
  else if s.db.bgError ≠ .ok then s
  else if s.db.imm.isNone ∧ s.db.versions.needsCompaction = false then s
  else { s with backgroundCompaction := true, env := s.env.schedule () }

/-- `background_work_finished_signal.notify_all`. -/
def notifyAll (s : Scheduler) : Scheduler :=
  { s with
    writerWaits := false
    closing := if s.closing = .waiting then .woken else s.closing }

/-- The end of `BackgroundCall`. -/
def endCall (s : Scheduler) : Scheduler :=
  { s with call := none, backgroundCompaction := false }.maybeCompaction.notifyAll

/-- The end of `CompactMemTable` when it fails; the mutex is held up to the next signal. -/
def failCall (result : State) (s : Scheduler) : Scheduler :=
  endCall { s with db := { s.db with bgError := if s.db.bgError = .ok then result else s.db.bgError } }

def turnStep (writeBufferSize : Nat) (create : Nat → State) (s : Scheduler) : Scheduler :=
  match s.db.makeRoomTurn writeBufferSize create with
  | (.wait, db) => { s with db, writerWaits := true }
  | (.rotated, db) => { s with db }.maybeCompaction
  | (_, db) => { s with db }

/-- `BackgroundCall`, up to where it releases the mutex. -/
def beginStep (trivialMove : Bool) (picked : VersionSet) (s : Scheduler) : Scheduler :=
  if s.shuttingDown then s.endCall
  else if s.db.bgError ≠ .ok then s.endCall
  else if s.db.imm.isSome then
    -- `WriteLevel0Table` takes a number for the table
    { s with db := { s.db with versions := s.db.versions.newFileNumber.2 }, call := some .building }
  else if s.db.versions.needsCompaction = false then s.endCall
  else
    let s := { s with db := { s.db with versions := picked } }
    -- nothing is done for a compaction that is no trivial move
    if trivialMove then { s with call := some .moving } else s.endCall

def builtStep (result : State) (s : Scheduler) : Scheduler :=
  let result := if result = .ok ∧ s.shuttingDown then .ioError else result
  if result = .ok then { s with call := some .flushing } else s.failCall result

def appliedStep (result : State) (versions : VersionSet) (s : Scheduler) : Scheduler :=
  let s := { s with db := { s.db with versions } }
  if result = .ok then
    let s := { s with db := { s.db with imm := none } }
    if s.db.bgError ≠ .ok then s.endCall else { s with call := some .deleting }
  else s.failCall result

/-- The test of the loop of `~DBImpl`. -/
def closeTest (s : Scheduler) : Scheduler :=
  { s with closing := if s.backgroundCompaction then .waiting else .done }

/-- The step of an action, where it is possible. Nobody uses the database behind the call of its
destructor, or while a writer still waits. -/
def step (writeBufferSize : Nat) : SchedulerAction → Scheduler → Option Scheduler
  | .turn create, s =>
    if s.closing = .no ∧ s.writerWaits = false then some (s.turnStep writeBufferSize create) else none
  | .write mem lastSequence, s =>
    if s.closing = .no ∧ s.writerWaits = false then
      some { s with db := { s.db with mem, versions := s.db.versions.setLastSequence lastSequence } }
    else none
  | .get, s => if s.closing = .no then some s.maybeCompaction else none
  | .begin_ trivialMove picked, s =>
    s.env.begin?.map fun env => { s with env }.beginStep trivialMove picked
  | .built result, s => if s.call = some .building then some (s.builtStep result) else none
  | .applied result versions, s =>
    if s.call = some .flushing then some (s.appliedStep result versions)
    else if s.call = some .moving then
      some { s with db := { s.db with versions } }.endCall
    else none
  | .deleted, s => if s.call = some .deleting then some s.endCall else none
  | .close, s =>
    if s.closing = .no ∧ s.writerWaits = false then some { s with shuttingDown := true }.closeTest
    else none
  | .wake, s =>
    if s.closing = .waiting ∨ s.closing = .woken then some s.closeTest else none
  | .spurious, s => if s.writerWaits then some { s with writerWaits := false } else none

/-- Behind `Open`, which ends with `MaybeCompaction`. -/
def opened (db : DBImpl) : Scheduler := { db : Scheduler }.maybeCompaction

/-! ## The life of the background thread -/

/-- What has become of the calls of `Schedule`. -/
inductive Life
  /-- There was none. -/
  | unscheduled
  /-- The thread has not begun. -/
  | scheduled
  | running
  /-- The thread has ended. -/
  | ended
  /-- It has ended, and there was a second call. -/
  | lost
  deriving DecidableEq, Repr

namespace Life

def env : Life → PosixEnv Unit
  | unscheduled => { threads := [] }
  | scheduled => (PosixEnv.schedule () { threads := [] })
  | running | ended =>
    { PosixEnv.schedule () { threads := [] } with
      threads := [.outside []], executed := [⟨0, ()⟩] }
  | lost => PosixEnv.schedule () { PosixEnv.schedule () { threads := [] } with
      threads := [.outside []], executed := [⟨0, ()⟩] }

/-- `background_compaction_`. -/
def flag : Life → Bool
  | unscheduled | ended => false
  | scheduled | running | lost => true

/-- Behind a call of `Schedule`. -/
def next : Life → Life
  | unscheduled => scheduled
  | ended => lost
  | life => life

theorem env_next {life : Life} (h : life.flag = false) :
    life.next.env = life.env.schedule () ∧ life.next.flag = true ∧ life.next ≠ running := by
  cases life with
  | unscheduled | ended => exact ⟨rfl, rfl, Life.noConfusion⟩
  | scheduled | running | lost => cases h

theorem begin?_env {life : Life} {env : PosixEnv Unit} (h : life.env.begin? = some env) :
    life = scheduled ∧ env = running.env := by
  cases life with
  | scheduled => exact ⟨rfl, (Option.some.inj h).symm⟩
  | unscheduled | running | ended | lost => cases h

/-- The steps of one thread that makes the calls, and of the one that the first call starts. -/
theorem exists_run (life : Life) : ∃ n threads,
    runAll (PosixEnv.step fun _ => []) threads (.ofCalls [List.replicate n ()]) =
      some { life.env with threads := .outside [] :: life.env.threads } := by
  have hcall (env : PosixEnv Unit) (calls : List Unit) (hfree : env.locked = false) :
      runAll (PosixEnv.step fun _ => []) (List.replicate 5 0)
        { env with threads := .outside (() :: calls) :: env.threads } =
      some (({ env with threads := .outside calls :: env.threads } : PosixEnv Unit).schedule ()) :=
    PosixEnv.runAll_schedule (l := []) rfl hfree
  have hfirst (n : Nat) : runAll (PosixEnv.step fun _ => []) (List.replicate 5 0)
      (.ofCalls [List.replicate (n + 1) ()]) = some { scheduled.env with
        threads := .outside (List.replicate n ()) :: scheduled.env.threads } :=
    hcall unscheduled.env _ rfl
  have hsecond (n : Nat) : runAll (PosixEnv.step fun _ => []) (List.replicate 5 0 ++ [1])
      (.ofCalls [List.replicate (n + 1) ()]) = some { running.env with
        threads := .outside (List.replicate n ()) :: running.env.threads } := by
    rw [runAll_append, hfirst]
    rfl
  cases life with
  | unscheduled => exact ⟨0, [], rfl⟩
  | scheduled => exact ⟨1, _, hfirst 0⟩
  | running | ended => exact ⟨1, _, hsecond 0⟩
  | lost =>
    refine ⟨2, List.replicate 5 0 ++ [1] ++ List.replicate 5 0, ?_⟩
    rw [runAll_append, hsecond]
    exact hcall running.env [] rfl

end Life

/-! ## The invariant -/

/-- There is background work, and nothing speaks against it. -/
def HasWork (s : Scheduler) : Prop :=
  s.shuttingDown = false ∧ s.db.bgError = .ok ∧
    (s.db.imm.isSome ∨ s.db.versions.needsCompaction = true)

/-- The thread stands where `life` says. -/
structure At (life : Life) (s : Scheduler) : Prop where
  env : s.env = life.env
  flag : s.backgroundCompaction = life.flag
  call : s.call.isSome ↔ life = .running

/-- Work is scheduled, and who waits has a reason to. -/
structure Sound (s : Scheduler) : Prop where
  life : ∃ life, At life s
  work : s.HasWork → s.backgroundCompaction = true
  writer : s.writerWaits = true → s.backgroundCompaction = true
  shuttingDown : s.shuttingDown = false ↔ s.closing = .no
  waiting : s.closing = .waiting → s.backgroundCompaction = true
  done : s.closing = .done → s.backgroundCompaction = false

variable {s t : Scheduler} {life : Life} {limit : Nat}

/-- `MaybeCompaction` schedules a call when there is work and none is outstanding. -/
theorem maybeCompaction_cases (s : Scheduler) :
    s.maybeCompaction = s ∧ (s.HasWork → s.backgroundCompaction = true) ∨
      s.backgroundCompaction = false ∧ s.HasWork ∧
        s.maybeCompaction = { s with backgroundCompaction := true, env := s.env.schedule () } := by
  rw [maybeCompaction]
  split
  · next hflag => exact .inl ⟨rfl, fun _ => hflag⟩
  next hflag =>
  split
  · next hdown => exact .inl ⟨rfl, fun h => absurd hdown (Bool.eq_false_iff.mp h.1)⟩
  next hdown =>
  split
  · next herror => exact .inl ⟨rfl, fun h => absurd h.2.1 herror⟩
  next herror =>
  split
  · next hidle =>
    refine .inl ⟨rfl, fun h => ?_⟩
    rcases h.2.2 with himm | hneeds
    · rw [Option.isNone_iff_eq_none.mp hidle.1] at himm
      cases himm
    · rw [hidle.2] at hneeds
      cases hneeds
  · next hbusy =>
    rw [Bool.not_eq_true] at hflag hdown
    refine .inr ⟨hflag, ⟨hdown, not_not.mp herror, ?_⟩, rfl⟩
    rw [not_and_or, Option.isNone_iff_eq_none, ← ne_eq, Option.ne_none_iff_isSome,
      Bool.not_eq_false] at hbusy
    exact hbusy

/-- The call of `MaybeCompaction` that ends a section under the mutex: before it, only the work may
be unscheduled. -/
theorem Sound.of_maybeCompaction (hlife : ∃ life, At life s) (hrun : s.call = none)
    (hwriter : s.writerWaits = true → s.backgroundCompaction = true)
    (hdown : s.shuttingDown = false ↔ s.closing = .no)
    (hwaiting : s.closing = .waiting → s.backgroundCompaction = true)
    (hdone : s.closing = .done → s.backgroundCompaction = false) :
    Sound s.maybeCompaction := by
  rcases s.maybeCompaction_cases with ⟨heq, hwork⟩ | ⟨hflag, hwork, heq⟩
  · rw [heq]
    exact ⟨hlife, hwork, hwriter, hdown, hwaiting, hdone⟩
  · obtain ⟨life, henv, hlifeFlag, hcall⟩ := hlife
    obtain ⟨hnext, hset, hne⟩ := Life.env_next (hlifeFlag ▸ hflag)
    rw [heq]
    refine ⟨⟨life.next, ?_, hset.symm, ?_⟩, fun _ => rfl, fun _ => rfl, hdown, fun _ => rfl, ?_⟩
    · rw [hnext, ← henv]
    · exact iff_of_false (by rw [hrun]; exact Bool.false_ne_true) hne
    · intro hclosed
      rw [hdown.mp hwork.1] at hclosed
      cases hclosed

/-! ## The steps -/

/-- What a step does, and when it is possible. -/
inductive Moves (limit : Nat) (s : Scheduler) : SchedulerAction → Scheduler → Prop
  | turn (create) (hopen : s.closing = .no) (hwaits : s.writerWaits = false) :
      Moves limit s (.turn create) (s.turnStep limit create)
  | write (mem lastSequence) (hopen : s.closing = .no) (hwaits : s.writerWaits = false) :
      Moves limit s (.write mem lastSequence)
        { s with db := { s.db with mem, versions := s.db.versions.setLastSequence lastSequence } }
  | get (hopen : s.closing = .no) : Moves limit s .get s.maybeCompaction
  | begin_ (trivialMove picked env) (hbegin : s.env.begin? = some env) :
      Moves limit s (.begin_ trivialMove picked) ({ s with env }.beginStep trivialMove picked)
  | built (result) (hcall : s.call = some .building) :
      Moves limit s (.built result) (s.builtStep result)
  | applied (result versions) (hcall : s.call = some .flushing) :
      Moves limit s (.applied result versions) (s.appliedStep result versions)
  | moved (result versions) (hcall : s.call = some .moving) :
      Moves limit s (.applied result versions) { s with db := { s.db with versions } }.endCall
  | deleted (hcall : s.call = some .deleting) : Moves limit s .deleted s.endCall
  | close (hopen : s.closing = .no) (hwaits : s.writerWaits = false) :
      Moves limit s .close { s with shuttingDown := true }.closeTest
  | wake (hclosing : s.closing = .waiting ∨ s.closing = .woken) : Moves limit s .wake s.closeTest
  | spurious (hwaits : s.writerWaits = true) :
      Moves limit s .spurious { s with writerWaits := false }

theorem moves_of_step {action : SchedulerAction} (h : step limit action s = some t) :
    Moves limit s action t := by
  cases action with
  | turn create =>
    obtain ⟨hopen, h⟩ := Option.ite_none_right_eq_some.mp h
    exact Option.some.inj h ▸ .turn create hopen.1 hopen.2
  | write mem lastSequence =>
    obtain ⟨hopen, h⟩ := Option.ite_none_right_eq_some.mp h
    exact Option.some.inj h ▸ .write mem lastSequence hopen.1 hopen.2
  | get =>
    obtain ⟨hopen, h⟩ := Option.ite_none_right_eq_some.mp h
    exact Option.some.inj h ▸ .get hopen
  | begin_ trivialMove picked =>
    obtain ⟨env, hbegin, rfl⟩ := Option.map_eq_some_iff.mp h
    exact .begin_ trivialMove picked env hbegin
  | built result =>
    obtain ⟨hcall, h⟩ := Option.ite_none_right_eq_some.mp h
    exact Option.some.inj h ▸ .built result hcall
  | applied result versions =>
    rw [step] at h
    split at h
    · next hcall => exact Option.some.inj h ▸ .applied result versions hcall
    · obtain ⟨hcall, h⟩ := Option.ite_none_right_eq_some.mp h
      exact Option.some.inj h ▸ .moved result versions hcall
  | deleted =>
    obtain ⟨hcall, h⟩ := Option.ite_none_right_eq_some.mp h
    exact Option.some.inj h ▸ .deleted hcall
  | close =>
    obtain ⟨hopen, h⟩ := Option.ite_none_right_eq_some.mp h
    exact Option.some.inj h ▸ .close hopen.1 hopen.2
  | wake =>
    obtain ⟨hclosing, h⟩ := Option.ite_none_right_eq_some.mp h
    exact Option.some.inj h ▸ .wake hclosing
  | spurious =>
    obtain ⟨hwaits, h⟩ := Option.ite_none_right_eq_some.mp h
    exact Option.some.inj h ▸ .spurious hwaits

/-- The signal does not matter to `MaybeCompaction`. -/
theorem endCall_eq (s : Scheduler) : s.endCall =
    { s with call := none, backgroundCompaction := false }.notifyAll.maybeCompaction := by
  simp only [endCall, maybeCompaction, notifyAll]
  split_ifs <;> rfl

/-- `BackgroundCall` ends. -/
theorem Sound.endCall (henv : s.env = Life.running.env)
    (hdown : s.shuttingDown = false ↔ s.closing = .no) (hdone : s.closing ≠ .done) :
    Sound s.endCall := by
  have hclosing : (if s.closing = .waiting then ClosePc.woken else s.closing) ≠ .waiting ∧
      (if s.closing = .waiting then ClosePc.woken else s.closing) ≠ .done ∧
      ((if s.closing = .waiting then ClosePc.woken else s.closing) = .no ↔ s.closing = .no) := by
    cases hpc : s.closing with
    | done => exact absurd hpc hdone
    | no | waiting | woken => decide
  rw [endCall_eq]
  refine .of_maybeCompaction ⟨.ended, henv, rfl, ?_⟩ rfl (fun h => ?_) ?_ (fun h => ?_) fun h => ?_
  · exact iff_of_false Bool.false_ne_true Life.noConfusion
  · cases h
  · exact hdown.trans hclosing.2.2.symm
  · exact absurd h hclosing.1
  · exact absurd h hclosing.2.1

namespace Sound

/-- The thread is in `BackgroundCall`. -/
theorem running (h : Sound s) (hcall : s.call.isSome) :
    s.env = Life.running.env ∧ s.backgroundCompaction = true ∧ s.closing ≠ .done := by
  obtain ⟨life, henv, hflag, hiff⟩ := h.life
  obtain rfl := hiff.mp hcall
  refine ⟨henv, hflag, fun hdone => ?_⟩
  rw [h.done hdone] at hflag
  cases hflag

/-- The call goes on, and stays outstanding. -/
theorem goesOn (h : Sound s) (hcall : s.call.isSome) (db : DBImpl) (pc : CallPc) :
    Sound { s with db, call := some pc } := by
  obtain ⟨henv, hflag, hdone⟩ := h.running hcall
  exact ⟨⟨.running, henv, hflag, iff_of_true rfl rfl⟩, fun _ => hflag, h.writer, h.shuttingDown,
    h.waiting, h.done⟩

theorem failCall (h : Sound s) (hcall : s.call.isSome) (result : State) :
    Sound (s.failCall result) := by
  obtain ⟨henv, -, hdone⟩ := h.running hcall
  exact .endCall henv h.shuttingDown hdone

theorem builtStep (h : Sound s) (hcall : s.call = some .building) (result : State) :
    Sound (s.builtStep result) := by
  have hsome : s.call.isSome := by rw [hcall]; rfl
  rw [Scheduler.builtStep]
  generalize (if result = .ok ∧ s.shuttingDown then State.ioError else result) = r
  split
  · exact h.goesOn hsome s.db .flushing
  · exact h.failCall hsome r

theorem appliedStep (h : Sound s) (hcall : s.call = some .flushing) (result : State)
    (versions : VersionSet) : Sound (s.appliedStep result versions) := by
  have hsome : s.call.isSome := by rw [hcall]; rfl
  obtain ⟨henv, -, hdone⟩ := h.running hsome
  rw [Scheduler.appliedStep]
  dsimp only
  split
  · split
    · exact .endCall henv h.shuttingDown hdone
    · exact h.goesOn hsome _ .deleting
  · exact .endCall henv h.shuttingDown hdone

/-- The thread takes up the call that it has been started for. -/
theorem beginStep (h : Sound s) {env : PosixEnv Unit} (hbegin : s.env.begin? = some env)
    (trivialMove : Bool) (picked : VersionSet) :
    Sound ({ s with env }.beginStep trivialMove picked) := by
  obtain ⟨life, henv, hflag, hiff⟩ := h.life
  obtain ⟨rfl, rfl⟩ := Life.begin?_env (henv ▸ hbegin)
  have hdone : s.closing ≠ .done := fun hdone => by
    rw [h.done hdone] at hflag
    cases hflag
  have hend (db : DBImpl) : Sound { s with env := Life.running.env, db }.endCall :=
    .endCall rfl h.shuttingDown hdone
  have hruns (db : DBImpl) (pc : CallPc) :
      Sound { s with env := Life.running.env, db, call := some pc } :=
    ⟨⟨.running, rfl, hflag, iff_of_true rfl rfl⟩, fun _ => hflag, h.writer, h.shuttingDown,
      h.waiting, h.done⟩
  rw [Scheduler.beginStep]
  split
  · exact hend s.db
  split
  · exact hend s.db
  split
  · exact hruns _ .building
  split
  · exact hend s.db
  · dsimp only
    split
    · exact hruns _ .moving
    · exact hend _

/-- Something changes that `MaybeCompaction` looks at. -/
theorem maybeCompaction (h : Sound s) (db : DBImpl) (hcall : s.backgroundCompaction = false →
    s.call = none) : Sound ({ s with db }.maybeCompaction) := by
  by_cases hflag : s.backgroundCompaction = true
  · have heq : ({ s with db } : Scheduler).maybeCompaction = { s with db } := if_pos hflag
    rw [heq]
    exact ⟨h.life.imp fun _ hat => ⟨hat.env, hat.flag, hat.call⟩, fun _ => hflag, h.writer,
      h.shuttingDown, h.waiting, h.done⟩
  · rw [Bool.not_eq_true] at hflag
    exact .of_maybeCompaction (h.life.imp fun _ hat => ⟨hat.env, hat.flag, hat.call⟩) (hcall hflag)
      h.writer h.shuttingDown h.waiting h.done

/-- Without a call outstanding the thread is not in `BackgroundCall`. -/
theorem call_eq_none (h : Sound s) (hflag : s.backgroundCompaction = false) : s.call = none := by
  obtain ⟨life, -, hlifeFlag, hiff⟩ := h.life
  rw [← Option.not_isSome_iff_eq_none]
  intro hsome
  rw [hiff.mp hsome, hflag] at hlifeFlag
  cases hlifeFlag

/-- The test of the destructor's loop. -/
theorem closeTest (h : Sound s) : Sound { s with shuttingDown := true }.closeTest := by
  refine ⟨h.life.imp fun _ hat => ⟨hat.env, hat.flag, hat.call⟩, fun hwork => ?_, h.writer,
    ?_, ?_, ?_⟩
  · cases hwork.1
  all_goals
    rw [Scheduler.closeTest]
    dsimp only
    cases s.backgroundCompaction <;> decide

end Sound

/-- A turn waits for the memtable that is being flushed. -/
theorem makeRoomTurn_wait {db db' : DBImpl} {create : Nat → State}
    (h : db.makeRoomTurn limit create = (.wait, db')) :
    db' = db ∧ db.bgError = .ok ∧ db.imm.isSome := by
  rw [DBImpl.makeRoomTurn] at h
  split at h
  · cases h
  next hbg =>
  split at h
  · cases h
  next hslow =>
  split at h
  · cases h
  split at h
  · next hstop => exact absurd (Nat.le_trans (by decide) hstop) hslow
  split at h
  · next himm =>
    cases h
    exact ⟨rfl, not_not.mp hbg, himm⟩
  · dsimp only at h
    split at h
    · cases h
    split at h <;> cases h

namespace Sound

/-- A change of the database that gives the background thread no more to do. -/
theorem withDb (h : Sound s) {db : DBImpl} (hbg : db.bgError = s.db.bgError)
    (himm : db.imm = s.db.imm)
    (hneeds : db.versions.needsCompaction = s.db.versions.needsCompaction) :
    Sound { s with db } := by
  refine ⟨h.life.imp fun _ hat => ⟨hat.env, hat.flag, hat.call⟩, fun hwork => h.work ?_, h.writer,
    h.shuttingDown, h.waiting, h.done⟩
  obtain ⟨hdown, herror, hdo⟩ := hwork
  exact ⟨hdown, hbg.symm.trans herror, by rwa [himm, hneeds] at hdo⟩

theorem turnStep (h : Sound s) (hno : s.closing = .no) (create : Nat → State) :
    Sound (s.turnStep limit create) := by
  rw [Scheduler.turnStep]
  rcases s.db.makeRoomTurn_cases limit create with
    ⟨r, vs, hvs, hturn⟩ | hturn | hturn | hturn | ⟨-, -, hturn⟩
  · rw [hturn]
    refine h.withDb rfl rfl ?_
    rcases hvs with rfl | ⟨-, rfl⟩ <;> rfl
  · rw [hturn]
    exact h
  · rw [hturn]
    obtain ⟨-, herror, himm⟩ := makeRoomTurn_wait hturn
    have hflag := h.work ⟨h.shuttingDown.mpr hno, herror, .inl himm⟩
    exact ⟨h.life.imp fun _ hat => ⟨hat.env, hat.flag, hat.call⟩, fun _ => hflag, fun _ => hflag,
      h.shuttingDown, h.waiting, h.done⟩
  · rw [hturn]
    exact h
  · rw [hturn]
    exact h.maybeCompaction _ h.call_eq_none

theorem step {action : SchedulerAction} (h : Sound s) (hstep : step limit action s = some t) :
    Sound t := by
  cases moves_of_step hstep with
  | turn create hopen hwaits => exact h.turnStep hopen create
  | write mem lastSequence hopen hwaits => exact h.withDb rfl rfl rfl
  | get hopen => exact h.maybeCompaction s.db h.call_eq_none
  | begin_ trivialMove picked env hbegin => exact h.beginStep hbegin trivialMove picked
  | built result hcall => exact h.builtStep hcall result
  | applied result versions hcall => exact h.appliedStep hcall result versions
  | moved result versions hcall | deleted hcall =>
    obtain ⟨henv, -, hdone⟩ := h.running (by rw [hcall]; rfl)
    exact .endCall henv h.shuttingDown hdone
  | close hopen hwaits => exact h.closeTest
  | wake hclosing =>
    have hdown : s.shuttingDown = true := by
      rw [← Bool.not_eq_false, h.shuttingDown]
      intro hno
      rw [hno] at hclosing
      exact hclosing.elim ClosePc.noConfusion ClosePc.noConfusion
    have hsame : { s with shuttingDown := true } = s := by rw [← hdown]
    exact hsame ▸ h.closeTest
  | spurious hwaits =>
    exact ⟨h.life.imp fun _ hat => ⟨hat.env, hat.flag, hat.call⟩, h.work, Bool.noConfusion,
      h.shuttingDown, h.waiting, h.done⟩

theorem opened (db : DBImpl) : Sound (opened db) :=
  .of_maybeCompaction ⟨.unscheduled, rfl, rfl, iff_of_false Bool.false_ne_true Life.noConfusion⟩ rfl
    Bool.noConfusion (iff_of_true rfl rfl) ClosePc.noConfusion ClosePc.noConfusion

theorem steps {P : Scheduler → SchedulerAction → Prop} (h : Sound s)
    (hrun : Steps (Scheduler.step limit) P s t) : Sound t :=
  hrun.invariant (fun _ _ _ _ hstep hs => Sound.step hs hstep) h

end Sound

/-! ## Runs -/

/-- The calls of `Schedule` that have not been executed, and the call that is being executed. -/
def outstanding (s : Scheduler) : Nat :=
  s.env.scheduled.length - s.env.executed.length + s.call.isSome.toNat

/-- Every step that is possible. -/
def AnyStep (_ : Scheduler) (_ : SchedulerAction) : Prop := True

theorem At.outstanding (h : At life s) :
    s.outstanding = s.backgroundCompaction.toNat ∧ s.env.executed.length ≤ 1 := by
  have hcall : s.call.isSome = decide (life = .running) := by
    rw [Bool.eq_iff_iff, h.call, decide_eq_true_iff]
  rw [Scheduler.outstanding, h.env, h.flag, hcall]
  cases life <;> exact ⟨rfl, by decide⟩

theorem Sound.outstanding (h : Sound s) :
    s.outstanding = s.backgroundCompaction.toNat ∧ s.env.executed.length ≤ 1 := by
  obtain ⟨life, hlife⟩ := h.life
  exact hlife.outstanding

/-- `background_compaction_` is set exactly while one call is outstanding, and no more than one
call is ever executed. -/
theorem outstanding_eq {db : DBImpl} (h : Steps (step limit) AnyStep (opened db) s) :
    s.outstanding = s.backgroundCompaction.toNat ∧ s.env.executed.length ≤ 1 :=
  ((Sound.opened db).steps h).outstanding

/-- What a run has done on the environment, the threads of `Schedule` can do. -/
theorem exists_runAll_env {db : DBImpl} (h : Steps (step limit) AnyStep (opened db) s) :
    ∃ n threads, runAll (PosixEnv.step fun _ => []) threads (.ofCalls [List.replicate n ()]) =
      some { s.env with threads := .outside [] :: s.env.threads } := by
  obtain ⟨life, hlife⟩ := ((Sound.opened db).steps h).life
  rw [hlife.env]
  exact life.exists_run

/-- Where there is work, or where somebody waits for its end, a call is outstanding. -/
theorem outstanding_of_work {db : DBImpl} (h : Steps (step limit) AnyStep (opened db) s)
    (hwork : s.HasWork ∨ s.writerWaits = true ∨ s.closing = .waiting) : s.outstanding = 1 := by
  have hsound := (Sound.opened db).steps h
  have hflag : s.backgroundCompaction = true := by
    rcases hwork with hwork | hwait | hwait
    · exact hsound.work hwork
    · exact hsound.writer hwait
    · exact hsound.waiting hwait
  rw [hsound.outstanding.1, hflag]
  rfl

/-- When the destructor has returned, no call is outstanding and nothing can happen any more. -/
theorem step_eq_none_of_done {db : DBImpl} (h : Steps (step limit) AnyStep (opened db) s)
    (hdone : s.closing = .done) (action : SchedulerAction) :
    s.outstanding = 0 ∧ step limit action s = none := by
  have hsound := (Sound.opened db).steps h
  have hflag := hsound.done hdone
  have hcall := hsound.call_eq_none hflag
  refine ⟨by rw [hsound.outstanding.1, hflag]; rfl, ?_⟩
  refine Option.eq_none_iff_forall_ne_some.mpr fun t hstep => ?_
  cases moves_of_step hstep with
  | turn create hopen | write mem lastSequence hopen | get hopen | close hopen =>
    rw [hdone] at hopen
    cases hopen
  | begin_ trivialMove picked env hbegin =>
    obtain ⟨life, henv, hlifeFlag, -⟩ := hsound.life
    obtain ⟨rfl, -⟩ := Life.begin?_env (henv ▸ hbegin)
    rw [hflag] at hlifeFlag
    cases hlifeFlag
  | built result hpc | applied result versions hpc | moved result versions hpc | deleted hpc =>
    rw [hcall] at hpc
    cases hpc
  | wake hclosing =>
    rw [hdone] at hclosing
    exact hclosing.elim ClosePc.noConfusion ClosePc.noConfusion
  | spurious hwaits =>
    rw [hsound.writer hwaits] at hflag
    cases hflag

/-- A second call is in the queue, and this memtable waits for it. -/
structure Waits (imm : Memtable) (version : Version) (s : Scheduler) : Prop where
  env : s.env = Life.lost.env
  flag : s.backgroundCompaction = true
  call : s.call = none
  imm : s.db.imm = some imm
  version : s.db.versions.nowversion = version
  closing : s.closing ≠ .done

theorem Waits.withVersions {imm : Memtable} {version : Version} {mem : Memtable} {log : Nat}
    {vs : VersionSet} {writerWaits : Bool} (h : Waits imm version s)
    (hvs : vs.nowversion = s.db.versions.nowversion) :
    Waits imm version
      { s with db := { s.db with versions := vs, mem, logfilenum := log }, writerWaits } :=
  ⟨h.env, h.flag, h.call, h.imm, hvs.trans h.version, h.closing⟩

theorem Waits.turnStep {imm : Memtable} {version : Version} (h : Waits imm version s)
    (create : Nat → State) : Waits imm version (s.turnStep limit create) := by
  rw [Scheduler.turnStep]
  rcases s.db.makeRoomTurn_cases limit create with
    ⟨r, vs, hvs, hturn⟩ | hturn | hturn | hturn | ⟨hnone, -, -⟩
  · rw [hturn]
    exact h.withVersions (by rcases hvs with rfl | ⟨-, rfl⟩ <;> rfl)
  · rw [hturn]
    exact h.withVersions rfl
  · rw [hturn]
    exact h.withVersions rfl
  · rw [hturn]
    exact h.withVersions rfl
  · rw [h.imm] at hnone
    cases hnone

/-- Nothing empties the queue. -/
theorem Waits.step {imm : Memtable} {version : Version} {action : SchedulerAction}
    (h : Waits imm version s) (hstep : step limit action s = some t) : Waits imm version t := by
  have htest : s.closeTest.closing ≠ .done := by
    rw [closeTest, h.flag]
    exact ClosePc.noConfusion
  cases moves_of_step hstep with
  | turn create hopen hwaits => exact h.turnStep create
  | write mem lastSequence hopen hwaits => exact h.withVersions rfl
  | get hopen =>
    have hmaybe : s.maybeCompaction = s := if_pos h.flag
    rwa [hmaybe]
  | begin_ trivialMove picked env hbegin => cases (Life.begin?_env (h.env ▸ hbegin)).1
  | built result hcall | applied result versions hcall | moved result versions hcall
  | deleted hcall =>
    rw [h.call] at hcall
    cases hcall
  | close hopen hwaits => exact ⟨h.env, h.flag, h.call, h.imm, h.version, htest⟩
  | wake hclosing => exact ⟨h.env, h.flag, h.call, h.imm, h.version, htest⟩
  | spurious hwaits => exact h.withVersions rfl

/-- When the background thread has ended and there is a memtable to flush again, it is never
flushed, and the destructor never returns. -/
theorem never_flushed {db : DBImpl} {imm : Memtable}
    (h : Steps (step limit) AnyStep (opened db) s) (hexecuted : s.env.executed ≠ [])
    (hcall : s.call = none) (himm : s.db.imm = some imm) (hbg : s.db.bgError = .ok)
    (hdown : s.shuttingDown = false) (hrun : Steps (step limit) AnyStep s t) :
    t.db.imm = some imm ∧ t.db.versions.nowversion = s.db.versions.nowversion ∧
      t.closing ≠ .done := by
  have hsound := (Sound.opened db).steps h
  have hflag := hsound.work ⟨hdown, hbg, .inl (by rw [himm]; rfl)⟩
  obtain ⟨life, henv, hlifeFlag, hiff⟩ := hsound.life
  have hlost : life = .lost := by
    cases life with
    | lost => rfl
    | unscheduled | ended => rw [hflag] at hlifeFlag; cases hlifeFlag
    | scheduled => rw [henv] at hexecuted; exact absurd rfl hexecuted
    | running =>
      have hsome := hiff.mpr rfl
      rw [hcall] at hsome
      cases hsome
  have hclosing : s.closing ≠ .done := by
    rw [hsound.shuttingDown.mp hdown]
    exact ClosePc.noConfusion
  have hwaits : Waits imm s.db.versions.nowversion s :=
    ⟨hlost ▸ henv, hflag, hcall, himm, rfl, hclosing⟩
  have hend := hrun.invariant (fun _ _ _ _ hstep hs => Waits.step hs hstep) hwaits
  exact ⟨hend.imm, hend.version, hend.closing⟩

/-! ## A run -/

/-- A memtable with one entry. -/
def oneEntry : Memtable := ({} : Memtable).add ⟨[97], 1, .value, [98]⟩

/-- The memtable with which the database is opened is flushed, and another one is filled. -/
def flushRun : List SchedulerAction :=
  [.begin_ false {}, .built .ok, .applied .ok {}, .deleted, .write oneEntry 1]

/-- The end of the run. -/
def flushed : Scheduler where
  db := { versions := ({} : VersionSet).setLastSequence 1, mem := oneEntry }
  env := Life.ended.env

/-- Behind the rotation of the other one. -/
def rotated : Scheduler where
  db :=
    { versions := (({} : VersionSet).setLastSequence 1).newFileNumber.2
      imm := some oneEntry
      logfilenum := 2 }
  env := Life.lost.env
  backgroundCompaction := true

theorem runAll_flush :
    runAll (step 0) flushRun (opened { versions := {}, imm := some {} }) = some flushed := rfl

theorem runAll_rotate : runAll (step 0) (flushRun ++ [.turn fun _ => .ok])
    (opened { versions := {}, imm := some {} }) = some rotated := by
  have hturn : flushed.db.makeRoomTurn 0 (fun _ => .ok) = (.rotated, rotated.db) :=
    DBImpl.makeRoomTurn_rotates rfl (by decide) (by decide +kernel) rfl (by decide) rfl
  rw [runAll_append, runAll_flush]
  show some (flushed.turnStep 0 fun _ => .ok) = _
  rw [turnStep, hturn]
  rfl

theorem steps_rotate :
    Steps (step 0) AnyStep (opened { versions := {}, imm := some {} }) rotated :=
  .of_runAll (fun _ _ _ => trivial) runAll_rotate

theorem outstanding_eq_rotated :
    rotated.outstanding = rotated.backgroundCompaction.toNat ∧ rotated.env.executed.length ≤ 1 :=
  outstanding_eq steps_rotate

theorem outstanding_of_work_rotated : rotated.outstanding = 1 :=
  outstanding_of_work steps_rotate (.inl ⟨rfl, rfl, .inl rfl⟩)

/-- The destructor waits. -/
def blocked : Scheduler := { rotated with shuttingDown := true, closing := .waiting }

theorem never_flushed_blocked : blocked.db.imm = some oneEntry ∧
    blocked.db.versions.nowversion = rotated.db.versions.nowversion ∧ blocked.closing ≠ .done :=
  never_flushed steps_rotate (List.cons_ne_nil _ _) rfl rfl rfl rfl
    (.of_runAll (fun _ _ _ => trivial)
      (show runAll (step 0) [.close] rotated = some blocked from rfl))

/-- The destructor in the place of the rotation. -/
theorem step_eq_none_of_done_flushed :
    ({ flushed with shuttingDown := true, closing := .done } : Scheduler).outstanding = 0 ∧
      step 0 .get { flushed with shuttingDown := true, closing := .done } = none := by
  have hrun : runAll (step 0) (flushRun ++ [.close]) (opened { versions := {}, imm := some {} }) =
      some { flushed with shuttingDown := true, closing := .done } := by
    rw [runAll_append, runAll_flush]
    rfl
  exact step_eq_none_of_done (.of_runAll (fun _ _ _ => trivial) hrun) rfl .get

end Scheduler
end Yubindb
