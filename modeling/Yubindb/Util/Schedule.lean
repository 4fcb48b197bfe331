import Yubindb.Theory.Steps
import Mathlib.Algebra.GroupWithZero.Nat
import Mathlib.Data.List.Count
import Mathlib.Data.Prod.Lex
import Mathlib.Data.List.Perm.Basic
import Mathlib.Data.List.FinRange

/-!
# Background work

`PosixEnv::Schedule` in `src/util/env.cpp`, called by threads in any order. The first call starts a
thread, but that thread runs the work of the call and not `BackgroundThreadMain`, which nothing
calls: what is put into `background_work_queue` stays there.
-/

namespace Yubindb

/-- A call of `Schedule`, numbered in the order in which the mutex is taken, and what it is given. -/
structure WorkItem (W : Type*) where
  number : Nat
  work : W
  deriving DecidableEq, Repr

/-- A thread, with the calls of `Schedule` that it has not begun. -/
inductive WorkThread (W : Type*)
  /-- Started by `Schedule`, before it runs the work. -/
  | new (item : WorkItem W)
  | outside (calls : List W)
  -- in `Schedule`, in front of `if (!started_background_thread)`
  | start (item : WorkItem W) (calls : List W)
  | notify (item : WorkItem W) (calls : List W)
  | emplace (item : WorkItem W) (calls : List W)
  | unlock (calls : List W)
  deriving DecidableEq, Repr

namespace WorkThread
variable {W : Type*}

/-- Whether the thread has taken `background_work_mutex`. -/
def Inside : WorkThread W → Bool
  | new _ | outside _ => false
  | start .. | notify .. | emplace .. | unlock _ => true

def calls : WorkThread W → List W
  | new _ => []
  | outside calls | start _ calls | notify _ calls | emplace _ calls | unlock calls => calls

/-- The item that the thread has been started for. -/
def pending : WorkThread W → List (WorkItem W)
  | new item => [item]
  | _ => []

/-- The item for which the thread may start another one. -/
def starting : WorkThread W → List (WorkItem W)
  | start item _ => [item]
  | _ => []

/-- How many steps the thread takes, apart from those of an item that it is started for. -/
def stepsLeft : WorkThread W → Nat
  | new _ => 0
  | outside calls => 5 * calls.length
  | start _ calls => 5 * calls.length + 4
  | notify _ calls => 5 * calls.length + 3
  | emplace _ calls => 5 * calls.length + 2
  | unlock calls => 5 * calls.length + 1

end WorkThread

structure PosixEnv (W : Type*) where
  startedBackgroundThread : Bool := false
  backgroundWorkQueue : List (WorkItem W) := []
  /-- Whether `background_work_mutex` is locked. -/
  locked : Bool := false
  threads : List (WorkThread W)
  /-- Ghosts: the calls, and the items that a thread has begun to run. -/
  scheduled : List (WorkItem W) := []
  executed : List (WorkItem W) := []
  deriving DecidableEq, Repr

namespace PosixEnv
variable {W : Type*}

/-- Threads that make the calls, before the first one. -/
def ofCalls (callers : List (List W)) : PosixEnv W where
  threads := callers.map .outside

/-- The next step of a thread. `body` are the calls of `Schedule` that an item makes when it runs. -/
def step (body : WorkItem W → List W) (thread : Nat) (s : PosixEnv W) : Option (PosixEnv W) :=
  match s.threads[thread]? with
  | none => none
  | some (.new item) =>
    some { s with
      threads := s.threads.set thread (.outside (body item)), executed := s.executed ++ [item] }
  | some (.outside []) => none
  | some (.outside (work :: calls)) =>
    if s.locked then none
    else
      let item : WorkItem W := ⟨s.scheduled.length, work⟩
      some { s with
        locked := true
        threads := s.threads.set thread (.start item calls)
        scheduled := s.scheduled ++ [item] }
  | some (.start item calls) =>
    if s.startedBackgroundThread then
      some { s with threads := s.threads.set thread (.notify item calls) }
    else
      some { s with
        startedBackgroundThread := true
        threads := s.threads.set thread (.notify item calls) ++ [.new item] }
  | some (.notify item calls) =>
    -- `notify_one`, if the queue is empty; no thread waits on `background_work_cond`
    some { s with threads := s.threads.set thread (.emplace item calls) }
  | some (.emplace item calls) =>
    some { s with
      threads := s.threads.set thread (.unlock calls)
      backgroundWorkQueue := s.backgroundWorkQueue ++ [item] }
  | some (.unlock calls) =>
    some { s with locked := false, threads := s.threads.set thread (.outside calls) }

/-- No thread has a further step. -/
def Quiescent (body : WorkItem W → List W) (s : PosixEnv W) : Prop :=
  ∀ thread, step body thread s = none

/-- No item is executed twice, and the items executed are those scheduled when all is done. -/
def RunsOnce (body : WorkItem W → List W) (s : PosixEnv W) : Prop :=
  s.executed.Nodup ∧ (s.Quiescent body → s.executed.Perm s.scheduled)

/-- What a step does, with the threads around the one that takes it. -/
inductive Moves (body : WorkItem W → List W) (s : PosixEnv W) (l r : List (WorkThread W)) :
    WorkThread W → PosixEnv W → Prop
  | new (item) : Moves body s l r (.new item)
      { s with threads := l ++ .outside (body item) :: r, executed := s.executed ++ [item] }
  | lock (work calls) (hfree : s.locked = false) : Moves body s l r (.outside (work :: calls))
      { s with
        locked := true
        threads := l ++ .start ⟨s.scheduled.length, work⟩ calls :: r
        scheduled := s.scheduled ++ [⟨s.scheduled.length, work⟩] }
  | started (item calls) (hstarted : s.startedBackgroundThread = true) :
      Moves body s l r (.start item calls) { s with threads := l ++ .notify item calls :: r }
  | start (item calls) (hstarted : s.startedBackgroundThread = false) :
      Moves body s l r (.start item calls)
        { s with
          startedBackgroundThread := true
          threads := l ++ .notify item calls :: r ++ [.new item] }
  | notify (item calls) :
      Moves body s l r (.notify item calls) { s with threads := l ++ .emplace item calls :: r }
  | emplace (item calls) :
      Moves body s l r (.emplace item calls)
        { s with
          threads := l ++ .unlock calls :: r
          backgroundWorkQueue := s.backgroundWorkQueue ++ [item] }
  | unlock (calls) : Moves body s l r (.unlock calls)
      { s with locked := false, threads := l ++ .outside calls :: r }

variable {body : WorkItem W → List W} {callers : List (List W)} {thread : Nat}
  {s t : PosixEnv W}

theorem moves_of_step (h : step body thread s = some t) :
    ∃ l th r, s.threads = l ++ th :: r ∧ Moves body s l r th t := by
  cases hth : s.threads[thread]? with
  | none => simp [step, hth] at h
  | some th =>
    obtain ⟨hlt, hget⟩ := List.getElem?_eq_some_iff.mp hth
    obtain ⟨l, r, hthreads, hset⟩ : ∃ l r, s.threads = l ++ th :: r ∧
        ∀ th', s.threads.set thread th' = l ++ th' :: r := by
      refine ⟨s.threads.take thread, s.threads.drop (thread + 1), ?_,
        fun th' => List.set_eq_take_append_cons_drop.trans (if_pos hlt)⟩
      rw [← hget, List.getElem_cons_drop, List.take_append_drop]
    refine ⟨l, th, r, hthreads, ?_⟩
    rw [step, hth] at h
    cases th with
    | new item =>
      simp only [hset, Option.some.injEq] at h
      exact h ▸ .new item
    | outside calls =>
      cases calls with
      | nil => simp at h
      | cons work calls =>
        cases hlocked : s.locked with
        | true => simp [hlocked] at h
        | false =>
          simp only [hlocked, hset, Bool.false_eq_true, if_false, Option.some.injEq] at h
          exact h ▸ .lock work calls hlocked
    | start item calls =>
      cases hstarted : s.startedBackgroundThread with
      | true =>
        simp only [hstarted, hset, if_true, Option.some.injEq] at h
        exact h ▸ hstarted ▸ .started item calls hstarted
      | false =>
        simp only [hstarted, hset, Bool.false_eq_true, if_false, Option.some.injEq] at h
        exact h ▸ .start item calls hstarted
    | notify item calls =>
      simp only [hset, Option.some.injEq] at h
      exact h ▸ .notify item calls
    | emplace item calls =>
      simp only [hset, Option.some.injEq] at h
      exact h ▸ .emplace item calls
    | unlock calls =>
      simp only [hset, Option.some.injEq] at h
      exact h ▸ .unlock calls

/-- A state in which the mutex is held exactly by a thread in `Schedule`, and what has become of the
calls: the first one is executed, the others are not. -/
structure Reached (body : WorkItem W → List W) (callers : List (List W)) (s : PosixEnv W) :
    Prop where
  mutex : s.threads.countP WorkThread.Inside = s.locked.toNat
  calls : (s.threads.flatMap WorkThread.calls ++ s.scheduled.map WorkItem.work).Perm
    (callers.flatten ++ s.executed.flatMap body)
  ran : (s.executed ++ s.threads.flatMap WorkThread.pending).Perm
    (if s.startedBackgroundThread then s.scheduled.take 1 else [])
  unstarted : s.startedBackgroundThread = false →
    s.scheduled = s.threads.flatMap WorkThread.starting
  started : s.startedBackgroundThread = true → s.scheduled ≠ []
  first : ∀ item ∈ s.scheduled.head?, item.number = 0 ∧ item.work ∈ callers.flatten

theorem reached_ofCalls (body : WorkItem W → List W) (callers : List (List W)) :
    Reached body callers (ofCalls callers) where
  mutex := by
    simp [ofCalls, List.countP_map, Function.comp_def, WorkThread.Inside]
  calls := by
    simp [ofCalls, List.flatMap_map, WorkThread.calls]
  ran := by
    simp [ofCalls, List.flatMap_map, WorkThread.pending]
  unstarted _ := by
    simp [ofCalls, List.flatMap_map, WorkThread.starting]
  started h := by
    simp [ofCalls] at h
  first := by
    simp [ofCalls]

namespace Reached
variable {l r : List (WorkThread W)} {th : WorkThread W}

/-- A thread goes on in `Schedule`. -/
theorem goesOn (h : Reached body callers s) (hthreads : s.threads = l ++ th :: r)
    (th' : WorkThread W) (hinside : th'.Inside = th.Inside) (hcalls : th'.calls = th.calls)
    (hpending : th'.pending = th.pending)
    (hstarting : s.startedBackgroundThread = false → th'.starting = th.starting)
    (queue : List (WorkItem W)) :
    Reached body callers
      { s with threads := l ++ th' :: r, backgroundWorkQueue := queue } := by
  obtain ⟨hmutex, hall, hran, hunstarted, hstarted, hfirst⟩ := h
  refine ⟨?_, ?_, ?_, fun hno => ?_, hstarted, hfirst⟩
  · rwa [hthreads, List.countP_append, List.countP_cons, ← hinside, ← List.countP_cons,
      ← List.countP_append] at hmutex
  · rwa [hthreads, List.flatMap_append, List.flatMap_cons, ← hcalls, ← List.flatMap_cons,
      ← List.flatMap_append] at hall
  · rwa [hthreads, List.flatMap_append, List.flatMap_cons, ← hpending, ← List.flatMap_cons,
      ← List.flatMap_append] at hran
  · rw [hunstarted hno, hthreads, List.flatMap_append, List.flatMap_cons, ← hstarting hno,
      ← List.flatMap_cons, ← List.flatMap_append]

/-- A thread that holds the mutex is the only one. -/
theorem alone (h : Reached body callers s) (hthreads : s.threads = l ++ th :: r)
    (hinside : th.Inside) : s.locked = true ∧ ∀ u ∈ l ++ r, ¬ u.Inside := by
  have hmutex := h.mutex
  rw [hthreads, List.countP_append, List.countP_cons_of_pos hinside, ← Nat.add_assoc,
    ← List.countP_append] at hmutex
  cases hlocked : s.locked with
  | false => simp [hlocked] at hmutex
  | true =>
    rw [hlocked, Bool.toNat_true, Nat.add_eq_right] at hmutex
    exact ⟨rfl, fun u hu => List.countP_eq_zero.mp hmutex u hu⟩

theorem starting_eq_nil {us : List (WorkThread W)} (h : ∀ u ∈ us, ¬ u.Inside) :
    us.flatMap WorkThread.starting = [] := by
  refine List.flatMap_eq_nil_iff.mpr fun u hu => ?_
  have houtside := h u hu
  cases u with
  | start item calls => exact absurd rfl houtside
  | _ => rfl

theorem begins {item : WorkItem W} (h : Reached body callers s)
    (hthreads : s.threads = l ++ .new item :: r) :
    Reached body callers { s with
      threads := l ++ .outside (body item) :: r, executed := s.executed ++ [item] } := by
  obtain ⟨hmutex, hcalls, hran, hunstarted, hstarted, hfirst⟩ := h
  classical
  rw [List.perm_iff_count] at hcalls hran
  simp only [hthreads, List.countP_append, List.countP_cons, List.flatMap_append,
    List.flatMap_cons, List.count_append] at hmutex hcalls hran hunstarted
  refine ⟨?_, ?_, ?_, fun hno => ?_, hstarted, hfirst⟩
  · simpa [WorkThread.Inside, List.countP_cons] using hmutex
  · refine List.perm_iff_count.mpr fun work => ?_
    have hwork := hcalls work
    simp only [WorkThread.calls, List.count_nil, List.flatMap_append, List.flatMap_cons,
      List.flatMap_nil, List.count_append] at hwork ⊢
    omega
  · refine List.perm_iff_count.mpr fun k => ?_
    have hk := hran k
    simp only [WorkThread.pending, List.count_nil, List.flatMap_append, List.flatMap_cons,
      List.count_append] at hk ⊢
    omega
  · simpa [WorkThread.starting] using hunstarted hno

/-- Before the first call has started its thread, nothing has been executed. -/
theorem executed_eq_nil (h : Reached body callers s) (hno : s.startedBackgroundThread = false) :
    s.executed = [] := by
  have hran := h.ran
  rw [hno] at hran
  exact (List.append_eq_nil_iff.mp hran.eq_nil).1

theorem locks {work : W} {calls : List W} (h : Reached body callers s)
    (hthreads : s.threads = l ++ .outside (work :: calls) :: r) (hfree : s.locked = false) :
    Reached body callers { s with
      locked := true
      threads := l ++ .start ⟨s.scheduled.length, work⟩ calls :: r
      scheduled := s.scheduled ++ [⟨s.scheduled.length, work⟩] } := by
  have hnone : ∀ u ∈ s.threads, ¬ u.Inside := by
    have hmutex := h.mutex
    rw [hfree] at hmutex
    exact List.countP_eq_zero.mp hmutex
  have hempty : s.startedBackgroundThread = false → s.scheduled = [] := fun hno =>
    (h.unstarted hno).trans (starting_eq_nil hnone)
  rw [hthreads, List.forall_mem_append, List.forall_mem_cons] at hnone
  obtain ⟨hl, -, hr⟩ := hnone
  refine ⟨?_, ?_, ?_, fun hno => ?_, fun _ => by simp, fun item hitem => ?_⟩
  · show (l ++ _ :: r).countP _ = 1
    rw [List.countP_append, List.countP_cons_of_pos rfl, List.countP_eq_zero.mpr hl,
      List.countP_eq_zero.mpr hr]
  · have hcalls := h.calls
    rw [hthreads, List.flatMap_append, List.flatMap_cons] at hcalls
    refine List.Perm.trans ?_ hcalls
    classical
    refine List.perm_iff_count.mpr fun a => ?_
    simp only [WorkThread.calls, List.flatMap_append, List.flatMap_cons, List.map_append,
      List.map_cons, List.map_nil, List.count_append, List.count_cons, List.count_nil]
    omega
  · have hran := h.ran
    rw [hthreads, List.flatMap_append, List.flatMap_cons] at hran
    show (s.executed ++ (l ++ _ :: r).flatMap _).Perm _
    rw [List.flatMap_append, List.flatMap_cons]
    cases hstarted : s.startedBackgroundThread with
    | false => simpa [hstarted, WorkThread.pending] using hran
    | true =>
      obtain ⟨first, rest, hscheduled⟩ := List.exists_cons_of_ne_nil (h.started hstarted)
      simpa [hstarted, hscheduled, WorkThread.pending] using hran
  · show s.scheduled ++ _ = (l ++ _ :: r).flatMap _
    rw [hempty hno, List.flatMap_append, List.flatMap_cons, starting_eq_nil hl,
      starting_eq_nil hr]
    rfl
  · cases hscheduled : s.scheduled with
    | cons first rest =>
      refine h.first item ?_
      simpa [hscheduled] using hitem
    | nil =>
      obtain rfl : ⟨0, work⟩ = item := by simpa [hscheduled] using hitem
      have hno : s.startedBackgroundThread = false :=
        Bool.eq_false_iff.mpr fun hstarted => h.started hstarted hscheduled
      have hmem : work ∈ s.threads.flatMap WorkThread.calls ++ s.scheduled.map WorkItem.work := by
        simp [hthreads, WorkThread.calls]
      have hcaller := h.calls.subset hmem
      rw [h.executed_eq_nil hno, List.flatMap_nil, List.append_nil] at hcaller
      exact ⟨rfl, hcaller⟩

theorem starts {item : WorkItem W} {calls : List W} (h : Reached body callers s)
    (hthreads : s.threads = l ++ .start item calls :: r)
    (hno : s.startedBackgroundThread = false) :
    Reached body callers { s with
      startedBackgroundThread := true
      threads := l ++ .notify item calls :: r ++ [.new item] } := by
  obtain ⟨-, halone⟩ := h.alone hthreads rfl
  obtain ⟨hl, hr⟩ := List.forall_mem_append.mp halone
  have hscheduled : s.scheduled = [item] := by
    rw [h.unstarted hno, hthreads, List.flatMap_append, List.flatMap_cons, starting_eq_nil hl,
      starting_eq_nil hr]
    rfl
  have hran := h.ran
  have hmutex := h.mutex
  have hcalls := h.calls
  rw [hthreads, List.countP_append, List.countP_cons_of_pos rfl] at hmutex
  rw [hthreads, List.flatMap_append, List.flatMap_cons] at hcalls hran
  refine ⟨?_, ?_, ?_, fun hno => ?_, fun _ => by simp [hscheduled], h.first⟩
  · show (l ++ _ :: r ++ [_]).countP _ = _
    rw [List.countP_append, List.countP_append, List.countP_cons_of_pos rfl, ← hmutex]
    rfl
  · simpa [WorkThread.calls] using hcalls
  · rw [hno] at hran
    have hnil := hran.eq_nil
    simp only [List.append_eq_nil_iff] at hnil
    obtain ⟨hexecuted, hl, -, hr⟩ := hnil
    show (s.executed ++ (l ++ _ :: r ++ [_]).flatMap _).Perm (s.scheduled.take 1)
    simp [hexecuted, hl, hr, hscheduled, WorkThread.pending]
  · exact absurd hno (by simp)

theorem unlocks {calls : List W} (h : Reached body callers s)
    (hthreads : s.threads = l ++ .unlock calls :: r) :
    Reached body callers { s with locked := false, threads := l ++ .outside calls :: r } := by
  obtain ⟨-, halone⟩ := h.alone hthreads rfl
  obtain ⟨hmutex, hcalls, hran, hunstarted, hstarted, hfirst⟩ := h
  rw [hthreads, List.flatMap_append, List.flatMap_cons] at hcalls hran hunstarted
  refine ⟨?_, ?_, ?_, fun hno => ?_, hstarted, hfirst⟩
  · refine List.countP_eq_zero.mpr fun u hu => ?_
    rcases List.mem_append.mp hu with hu | hu
    · exact halone u (List.mem_append_left _ hu)
    · rcases List.mem_cons.mp hu with rfl | hu
      · exact Bool.false_ne_true
      · exact halone u (List.mem_append_right _ hu)
  · simpa [WorkThread.calls] using hcalls
  · simpa [WorkThread.pending] using hran
  · simpa [WorkThread.starting] using hunstarted hno

theorem moves (h : Reached body callers s) (hthreads : s.threads = l ++ th :: r)
    (hmoves : Moves body s l r th t) : Reached body callers t := by
  cases hmoves with
  | new item => exact h.begins hthreads
  | lock work calls hfree => exact h.locks hthreads hfree
  | started item calls hstarted =>
    exact h.goesOn hthreads (.notify item calls) rfl rfl rfl
      (fun hno => absurd (hstarted.symm.trans hno) (by decide)) _
  | start item calls hno => exact h.starts hthreads hno
  | notify item calls => exact h.goesOn hthreads (.emplace item calls) rfl rfl rfl (fun _ => rfl) _
  | emplace item calls => exact h.goesOn hthreads (.unlock calls) rfl rfl rfl (fun _ => rfl) _
  | unlock calls => exact h.unlocks hthreads

theorem of_runAll {threads : List Nat}
    (hrun : runAll (step body) threads (ofCalls callers) = some s) : Reached body callers s := by
  refine runAll_invariant (fun thread s t hstep h => ?_) hrun (reached_ofCalls body callers)
  obtain ⟨l, th, r, hthreads, hmoves⟩ := moves_of_step hstep
  exact h.moves hthreads hmoves

end Reached

/-! ## The end of a run -/

/-- What is still to do: starting the thread, running its work, and the steps of the calls. -/
def rank (s : PosixEnv W) : Nat ×ₗ Nat ×ₗ Nat :=
  toLex ((!s.startedBackgroundThread).toNat,
    toLex ((s.threads.flatMap WorkThread.pending).length, (s.threads.map WorkThread.stepsLeft).sum))

theorem rank_lt_of_step (h : step body thread s = some t) : t.rank < s.rank := by
  obtain ⟨l, th, r, hthreads, hmoves⟩ := moves_of_step h
  rw [rank, rank, hthreads, Prod.Lex.toLex_lt_toLex, Prod.Lex.toLex_lt_toLex]
  cases hmoves with
  | new item =>
    refine .inr ⟨rfl, .inl ?_⟩
    simp [WorkThread.pending]
  | start item calls hno => exact .inl (by simp [hno])
  | lock work calls hfree =>
    refine .inr ⟨rfl, .inr ⟨by simp [WorkThread.pending], ?_⟩⟩
    simp only [WorkThread.stepsLeft, List.length_cons, List.map_append, List.map_cons,
      List.sum_append, List.sum_cons]
    omega
  | started | notify | emplace | unlock =>
    exact .inr ⟨rfl, .inr ⟨by simp [WorkThread.pending], by simp [WorkThread.stepsLeft]⟩⟩

/-- A thread in `Schedule` can go on. -/
theorem step_ne_none {th : WorkThread W} (hth : s.threads[thread]? = some th)
    (hinside : th.Inside) : step body thread s ≠ none := by
  rw [step, hth]
  cases th with
  | new | outside => exact absurd hinside Bool.false_ne_true
  | start item calls => cases s.startedBackgroundThread <;> exact Option.some_ne_none _
  | notify | emplace | unlock => exact Option.some_ne_none _

namespace Reached

theorem threads_of_quiescent (h : Reached body callers s) (hquiet : s.Quiescent body) :
    ∀ th ∈ s.threads, th = .outside [] := by
  have hfree : s.locked = false := by
    refine Bool.eq_false_iff.mpr fun hlocked => ?_
    have hpos : 0 < s.threads.countP WorkThread.Inside := by simp [h.mutex, hlocked]
    obtain ⟨th, hmem, hinside⟩ := List.countP_pos_iff.mp hpos
    obtain ⟨thread, hth⟩ := List.getElem?_of_mem hmem
    exact step_ne_none hth hinside (hquiet thread)
  intro th hmem
  obtain ⟨thread, hth⟩ := List.getElem?_of_mem hmem
  have hstuck := hquiet thread
  by_cases hinside : th.Inside
  · exact absurd hstuck (step_ne_none hth hinside)
  rw [step, hth] at hstuck
  cases th with
  | new item => cases hstuck
  | outside calls =>
    cases calls with
    | nil => rfl
    | cons work calls => simp [hfree] at hstuck
  | start | notify | emplace | unlock => exact absurd rfl hinside

/-- At the end the first call is executed, and no other one. -/
theorem executed_of_quiescent (h : Reached body callers s) (hquiet : s.Quiescent body) :
    s.executed = s.scheduled.take 1 ∧
      (s.scheduled.map WorkItem.work).Perm (callers.flatten ++ s.executed.flatMap body) := by
  have hall := h.threads_of_quiescent hquiet
  have hnil {β : Type _} (f : WorkThread W → List β) (hf : f (.outside []) = []) :
      s.threads.flatMap f = [] :=
    List.flatMap_eq_nil_iff.mpr fun th hth => (congrArg f (hall th hth)).trans hf
  have hcalls := h.calls
  have hran := h.ran
  rw [hnil _ rfl, List.nil_append] at hcalls
  rw [hnil _ rfl, List.append_nil] at hran
  refine ⟨?_, hcalls⟩
  cases hstarted : s.startedBackgroundThread with
  | false =>
    rw [h.unstarted hstarted, hnil _ rfl, h.executed_eq_nil hstarted]
    rfl
  | true =>
    obtain ⟨first, rest, hscheduled⟩ := List.exists_cons_of_ne_nil (h.started hstarted)
    rw [hstarted, if_pos rfl, hscheduled] at hran
    rw [hscheduled]
    exact List.perm_singleton.mp hran

theorem nodup_executed (h : Reached body callers s) : s.executed.Nodup := by
  have hle : s.executed.length ≤ 1 := by
    have hlength := h.ran.length_eq
    rw [List.length_append] at hlength
    split at hlength
    · have htake := List.length_take_le 1 s.scheduled
      omega
    · rw [List.length_nil] at hlength
      omega
  classical
  exact List.nodup_iff_count_le_one.mpr fun a => List.count_le_length.trans hle

theorem runsOnce_iff_length (h : Reached body callers s) :
    s.RunsOnce body ↔ (s.Quiescent body → s.scheduled.length ≤ 1) := by
  refine ⟨fun honce hquiet => ?_, fun hle => ⟨h.nodup_executed, fun hquiet => ?_⟩⟩
  · have hlength := (honce.2 hquiet).length_eq
    rw [(h.executed_of_quiescent hquiet).1] at hlength
    exact hlength ▸ List.length_take_le 1 s.scheduled
  · rw [(h.executed_of_quiescent hquiet).1, List.take_of_length_le (hle hquiet)]

/-- How many calls there have been at the end. -/
theorem length_scheduled_le_one_iff (h : Reached body callers s) (hquiet : s.Quiescent body) :
    s.scheduled.length ≤ 1 ↔
      callers.flatten.length ≤ 1 ∧ ∀ work ∈ callers.flatten, body ⟨0, work⟩ = [] := by
  obtain ⟨hexecuted, hcalls⟩ := h.executed_of_quiescent hquiet
  have hfirst := h.first
  rw [hexecuted] at hcalls
  have hlength := hcalls.length_eq
  rw [List.length_map, List.length_append] at hlength
  cases hscheduled : s.scheduled with
  | nil =>
    have hnone : callers.flatten = [] := by
      rw [hscheduled, List.length_nil] at hlength
      exact List.eq_nil_of_length_eq_zero (by omega)
    simp [hnone]
  | cons item rest =>
    obtain ⟨hzero, hwork⟩ := hfirst item (by simp [hscheduled])
    have hitem : item = ⟨0, item.work⟩ := by rw [← hzero]
    simp only [hscheduled, List.take_succ_cons, List.take_zero, List.flatMap_cons,
      List.flatMap_nil, List.append_nil, List.length_cons] at hlength
    refine ⟨fun hle => ?_, fun ⟨hone, hno⟩ => ?_⟩
    · have hpos := List.length_pos_of_mem hwork
      rw [List.length_cons] at hle
      refine ⟨by omega, fun work hmem => ?_⟩
      have hone : callers.flatten.length = 1 := by omega
      obtain ⟨only, honly⟩ := List.length_eq_one_iff.mp hone
      rw [honly, List.mem_singleton] at hwork hmem
      rw [hmem, ← hwork, ← hitem]
      exact List.eq_nil_of_length_eq_zero (by omega)
    · have hbody := hno item.work hwork
      rw [← hitem] at hbody
      rw [hbody, List.length_nil] at hlength
      rw [List.length_cons]
      omega

end Reached

/-- In every run, each item is executed at most once, and exactly the items scheduled are executed,
if there is one call of `Schedule` at most. -/
theorem runsOnce_iff (body : WorkItem W → List W) (callers : List (List W)) :
    (∀ threads s, runAll (step body) threads (ofCalls callers) = some s → s.RunsOnce body) ↔
      callers.flatten.length ≤ 1 ∧ ∀ work ∈ callers.flatten, body ⟨0, work⟩ = [] := by
  constructor
  · intro honce
    obtain ⟨threads, s, hrun, hquiet⟩ :=
      exists_runAll_stuck rank (fun _ _ _ (h : step body _ _ = _) => rank_lt_of_step h)
        (ofCalls callers)
    have h := Reached.of_runAll hrun
    have hle := h.runsOnce_iff_length.mp (honce threads s hrun) hquiet
    exact (h.length_scheduled_le_one_iff hquiet).mp hle
  · intro hone threads s hrun
    have h := Reached.of_runAll hrun
    exact h.runsOnce_iff_length.mpr fun hquiet => (h.length_scheduled_le_one_iff hquiet).mpr hone

/-- The second of two calls is never executed. -/
theorem not_runsOnce_two : ∃ threads s,
    runAll (step fun _ => []) threads (ofCalls [[1, 2]]) = some s ∧ ¬ s.RunsOnce fun _ => [] := by
  refine ⟨[0, 0, 0, 0, 0, 1, 0, 0, 0, 0, 0], _, rfl, fun honce => ?_⟩
  have hlength := (honce.2 fun thread => ?_).length_eq
  · exact absurd hlength (by decide)
  · match thread with
    | 0 => rfl
    | 1 => rfl
    | n + 2 => rfl

end PosixEnv
end Yubindb
