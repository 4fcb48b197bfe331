import Yubindb.Db.Write
import Yubindb.Theory.Mutex

/-!
# The mutex of the write path

What the thread in a call of `DBImpl::Write` does with the mutex, in `MakeRoomForwrite` and
`Writer::wait` too, along the control path that its observations choose.
-/

namespace Yubindb

/-- What the mutex protects. -/
inductive Shared
  | versions | writerque | mem | imm
  deriving DecidableEq, Repr

abbrev LockEvent := MutexEvent Shared

open MutexEvent (destroy)

/-! ## Control paths -/

/-- What a test of the loop over the queue reads: `w.done`, and whether `w` is at the front. -/
structure QueueTest where
  done : Bool
  front : Bool
  deriving DecidableEq, Repr

/-- What a turn of the loop of `MakeRoomForwrite` reads. -/
structure RoomTest where
  bgError : State := .ok
  numLevelFiles : Nat := 0
  memoryUsage : Nat := 0
  hasImm : Bool := false
  /-- The state of `NewWritableFile`. -/
  create : State := .ok
  backgroundCompaction : Bool := false
  shuttingDown : Bool := false

/-- A control path of `Write`. It ends in a loop when the tests or the turns do. -/
structure WritePath where
  /-- `updates == nullptr`. -/
  nullUpdates : Bool := false
  tests : List QueueTest
  turns : List RoomTest
  /-- How many writers the last loop finds in front of `now_writer`. -/
  ahead : Nat := 0

/-! ## `MakeRoomForwrite` -/

/-- The branches of the loop; the last one has two ends. -/
inductive RoomBranch
  | bgError | slowdown | room | stop | imm | createFails | rotate
  deriving DecidableEq, Repr

namespace RoomTest

def branch (writeBufferSize : Nat) (force allowDelay : Bool) (o : RoomTest) : RoomBranch :=
  if o.bgError ≠ .ok then .bgError
  else if allowDelay ∧ o.numLevelFiles ≥ kL0_SlowdownWrites then .slowdown
  else if !force ∧ o.memoryUsage ≤ writeBufferSize then .room
  else if o.numLevelFiles ≥ kL0_StopWrites then .stop
  else if o.hasImm then .imm
  else if o.create ≠ .ok then .createFails
  else .rotate

/-- What the conditions read up to the one that holds. -/
def conditions (force allowDelay : Bool) : RoomBranch → List LockEvent
  | .bgError => []
  | .slowdown => [.access .versions]
  | .room => (if allowDelay then [.access .versions] else []) ++ [.access .mem]
  | .stop => (if allowDelay then [.access .versions] else []) ++
      (if force then [] else [.access .mem]) ++ [.access .versions]
  | .imm | .createFails | .rotate => (if allowDelay then [.access .versions] else []) ++
      (if force then [] else [.access .mem]) ++ [.access .versions, .access .imm]

/-- `MaybeCompaction`, when there is an immutable memtable. -/
def maybeCompaction (o : RoomTest) : List LockEvent :=
  if o.backgroundCompaction ∨ o.shuttingDown then [] else [.access .imm]

end RoomTest

/-- Where a function has got to. -/
inductive Exit
  | inside | returned | threw
  deriving DecidableEq, Repr

/-- `MakeRoomForwrite`, whose `lks` adopts the mutex. -/
def makeRoomEvents (writeBufferSize : Nat) (force allowDelay : Bool) :
    List RoomTest → List LockEvent × Exit
  | [] => ([], .inside)
  | o :: os =>
    let branch := o.branch writeBufferSize force allowDelay
    let reads := RoomTest.conditions force allowDelay branch
    match branch with
    | .bgError | .room => (reads ++ destroy true, .returned)
    -- the second `lks.unlock()` throws, as `lks` does not own the mutex any more
    | .slowdown => (reads ++ [.unlock] ++ [.unlock] ++ destroy false, .threw)
    | .stop | .imm =>
      let (events, exit) := makeRoomEvents writeBufferSize force allowDelay os
      (reads ++ [.wait] ++ events, exit)
    | .createFails => (reads ++ [.access .versions] ++ destroy true, .returned)
    | .rotate =>
      let (events, exit) := makeRoomEvents writeBufferSize false allowDelay os
      (reads ++ [.access .versions, .access .mem, .access .imm, .access .mem] ++
        o.maybeCompaction ++ events, exit)

/-! ## `Write` -/

/-- `Writer::wait`, with a `std::unique_lock` of its own. -/
def writerWait : List LockEvent := [.lock, .wait] ++ destroy true

/-- The loop over the queue, and the test that left it. -/
def queueEvents : List QueueTest → List LockEvent × Option QueueTest
  | [] => ([], none)
  | t :: ts =>
    if t.done then ([], some t)
    else if t.front then ([.access .writerque], some t)
    else
      let (events, last) := queueEvents ts
      ([.access .writerque] ++ writerWait ++ events, last)

/-- `Write` behind `MakeRoomForwrite`, up to the destructor of `ptr`. The log, and the memtable of the
insertion, are used between the `unlock` and the `lock`. -/
def publishEvents (p : WritePath) : List LockEvent :=
  [.access .versions] ++
    (if p.nullUpdates then [] else [.access .writerque, .unlock, .lock]) ++
    [.access .versions] ++ List.replicate (p.ahead + 1) (.access .writerque) ++ destroy true

/-- What follows a call of `MakeRoomForwrite`; an exception leaves `Write`. -/
def afterRoom (p : WritePath) : Exit → List LockEvent
  | .inside => []
  | .threw => destroy true
  | .returned => publishEvents p

/-- `DBImpl::Write`. -/
def writeEvents (writeBufferSize : Nat) (p : WritePath) : List LockEvent :=
  let (queue, last) := queueEvents p.tests
  [.lock, .access .writerque] ++ queue ++
    match last with
    | none => []
    | some t =>
      if t.done then destroy true
      else
        let (room, exit) := makeRoomEvents writeBufferSize p.nullUpdates (!p.nullUpdates) p.turns
        room ++ afterRoom p exit

/-! ## Where the discipline ends -/

/-- Each turn waits or makes a new memtable. -/
def StaysInside (writeBufferSize : Nat) (force allowDelay : Bool) : List RoomTest → Prop
  | [] => True
  | o :: os =>
    match o.branch writeBufferSize force allowDelay with
    | .stop | .imm => StaysInside writeBufferSize force allowDelay os
    | .rotate => StaysInside writeBufferSize false allowDelay os
    | .bgError | .slowdown | .room | .createFails => False

/-- The call has not made a test yet, its first test finds it done, or its first test finds it at the
front and it has not left `MakeRoomForwrite` or slowed down there. -/
def WritePath.BeforeRelease (writeBufferSize : Nat) (p : WritePath) : Prop :=
  ∀ t ∈ p.tests.head?, t.done = true ∨
    t.front = true ∧ StaysInside writeBufferSize p.nullUpdates (!p.nullUpdates) p.turns

namespace RoomTest

theorem holds_conditions (force allowDelay : Bool) (b : RoomBranch) :
    MutexEvent.holds true (conditions force allowDelay b) = some true := by
  cases b <;> cases force <;> cases allowDelay <;> rfl

theorem holds_maybeCompaction (o : RoomTest) :
    MutexEvent.holds true o.maybeCompaction = some true := by
  rw [maybeCompaction]
  split <;> rfl

/-- A turn that waits gives the mutex back. -/
theorem holds_waits (force allowDelay : Bool) (b : RoomBranch) (events : List LockEvent) :
    MutexEvent.holds true (conditions force allowDelay b ++ [.wait] ++ events) =
      MutexEvent.holds true events := by
  simp only [MutexEvent.holds_append, holds_conditions, Option.bind_some]
  rfl

/-- One that makes a new memtable keeps it. -/
theorem holds_rotates (o : RoomTest) (force allowDelay : Bool) (events : List LockEvent) :
    MutexEvent.holds true (conditions force allowDelay .rotate ++
      [.access .versions, .access .mem, .access .imm, .access .mem] ++ o.maybeCompaction ++
        events) = MutexEvent.holds true events := by
  simp only [MutexEvent.holds_append, holds_conditions, Option.bind_some, MutexEvent.holds,
    MutexEvent.next, holds_maybeCompaction]

end RoomTest

variable {writeBufferSize : Nat} {force allowDelay : Bool}

/-- While the loop of `MakeRoomForwrite` goes on, its thread holds the mutex. -/
theorem holds_makeRoomEvents {os : List RoomTest}
    (h : StaysInside writeBufferSize force allowDelay os) :
    (makeRoomEvents writeBufferSize force allowDelay os).2 = .inside ∧
      MutexEvent.holds true (makeRoomEvents writeBufferSize force allowDelay os).1 = some true := by
  induction os generalizing force with
  | nil => exact ⟨rfl, rfl⟩
  | cons o os ih =>
    rw [StaysInside] at h
    rw [makeRoomEvents]
    cases hb : o.branch writeBufferSize force allowDelay with
    | stop | imm =>
      rw [hb] at h
      obtain ⟨hexit, hholds⟩ := ih h
      exact ⟨hexit, (RoomTest.holds_waits ..).trans hholds⟩
    | rotate =>
      rw [hb] at h
      obtain ⟨hexit, hholds⟩ := ih h
      exact ⟨hexit, (RoomTest.holds_rotates ..).trans hholds⟩
    | bgError | slowdown | room | createFails =>
      rw [hb] at h
      exact h.elim

/-- Once it has left, the mutex is free, or it has been unlocked twice. -/
theorem holds_makeRoomEvents_of_not {os : List RoomTest}
    (h : ¬ StaysInside writeBufferSize force allowDelay os) :
    (makeRoomEvents writeBufferSize force allowDelay os).2 = .returned ∧
        MutexEvent.holds true (makeRoomEvents writeBufferSize force allowDelay os).1 = some false ∨
      MutexEvent.holds true (makeRoomEvents writeBufferSize force allowDelay os).1 = none := by
  induction os generalizing force with
  | nil => exact absurd trivial h
  | cons o os ih =>
    rw [StaysInside] at h
    rw [makeRoomEvents]
    cases hb : o.branch writeBufferSize force allowDelay with
    | stop | imm =>
      rw [hb] at h
      dsimp only
      rw [RoomTest.holds_waits]
      exact ih h
    | rotate =>
      rw [hb] at h
      dsimp only
      rw [RoomTest.holds_rotates]
      exact ih h
    | bgError | room | createFails =>
      refine .inl ⟨rfl, ?_⟩
      simp only [MutexEvent.holds_append, RoomTest.holds_conditions, Option.bind_some]
      rfl
    | slowdown =>
      refine .inr ?_
      simp only [MutexEvent.holds_append, RoomTest.holds_conditions, Option.bind_some]
      rfl

/-- A call whose first test finds it at the front. -/
theorem holds_writeEvents_front (p : WritePath) {ts : List QueueTest}
    (h : p.tests = ⟨false, true⟩ :: ts) :
    MutexEvent.holds false (writeEvents writeBufferSize p) =
      let room := makeRoomEvents writeBufferSize p.nullUpdates (!p.nullUpdates) p.turns
      (MutexEvent.holds true room.1).bind (MutexEvent.holds · (afterRoom p room.2)) := by
  rw [writeEvents, h, ← MutexEvent.holds_append]
  rfl

/-- A call keeps the discipline exactly up to the point where it waits for its turn, slows down, or
leaves `MakeRoomForwrite`. -/
theorem disciplined_writeEvents_iff (writeBufferSize : Nat) (p : WritePath) :
    MutexEvent.Disciplined (writeEvents writeBufferSize p) ↔ p.BeforeRelease writeBufferSize := by
  rw [MutexEvent.Disciplined, WritePath.BeforeRelease]
  cases htests : p.tests with
  | nil =>
    refine iff_of_true ?_ nofun
    rw [writeEvents, htests]
    rfl
  | cons t ts =>
    obtain ⟨done, front⟩ := t
    cases done with
    | true =>
      refine iff_of_true ?_ (by simp)
      rw [writeEvents, htests]
      rfl
    | false =>
      cases front with
      | false =>
        -- `wait` locks the mutex that the call holds
        refine iff_of_false ?_ (by simp)
        rw [writeEvents, htests]
        exact Bool.false_ne_true
      | true =>
        rw [holds_writeEvents_front p htests]
        by_cases hstay : StaysInside writeBufferSize p.nullUpdates (!p.nullUpdates) p.turns
        · obtain ⟨hexit, hholds⟩ := holds_makeRoomEvents hstay
          refine iff_of_true ?_ (by simp [hstay])
          simp only [hexit, hholds]
          rfl
        · refine iff_of_false ?_ (by simp [hstay])
          rcases holds_makeRoomEvents_of_not hstay with ⟨hexit, hholds⟩ | hholds
          · -- the mutex is free when `Write` reads the last sequence
            simp only [hexit, hholds]
            exact Bool.false_ne_true
          · simp only [hholds]
            exact Bool.false_ne_true

/-- The only writer, which finds room. -/
def plainWrite : WritePath where
  tests := [⟨false, true⟩]
  turns := [{ memoryUsage := 100 }]

/-- The destructor of `lks` releases the mutex before `Write` reads `versions_`. -/
theorem not_disciplined_writeEvents :
    ¬ ∀ (writeBufferSize : Nat) (p : WritePath),
      MutexEvent.Disciplined (writeEvents writeBufferSize p) := by
  intro h
  exact absurd (h 4096 plainWrite) (by decide)

end Yubindb
