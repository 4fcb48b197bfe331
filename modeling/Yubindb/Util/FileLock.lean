import Yubindb.Theory.RecordLocks
import Yubindb.Theory.Steps

/-!
# The lock on a database

`LockFile`, `UnlockFile` and `FileLock` of `src/util/env.h`, `src/util/env.cpp`, as `Recover` and
`~DBImpl` of `src/db/db.cpp` call them: every `DBImpl` of every process, one system call at a time.
`filelock` is left out: names are put into it and taken out of it, and nothing looks for them.
-/

namespace Yubindb

/-- `FileLock`, with the file that its name stands for. -/
structure FileLock (φ : Type*) where
  fd : ℕ
  file : φ

/-- Where a `DBImpl` is with its lock. -/
inductive LockPc (φ : Type*)
  /-- There is none. -/
  | closed
  /-- In `LockFile`, behind `open`. -/
  | opening (lock : FileLock φ)
  /-- In `LockFile`, behind an `fcntl` that has failed. -/
  | refused (lock : FileLock φ)
  /-- `db_lock` is set. -/
  | locked (lock : FileLock φ)
  /-- In `UnlockFile`, behind an `fcntl` that has failed. -/
  | unlocking (lock : FileLock φ)

/-- The descriptor that the `DBImpl` has of its file. -/
def LockPc.lock {φ : Type*} : LockPc φ → Option (FileLock φ)
  | .closed => none
  | .opening lock | .refused lock | .locked lock | .unlocking lock => some lock

/-- The kernel, and each `DBImpl`: a process and a number. -/
structure LockUsers (π φ : Type*) where
  kernel : RecordLocks π φ := {}
  pc : π × ℕ → LockPc φ := fun _ => .closed

/-- A system call of a `DBImpl`. An `fcntl` may fail for reasons of its own. -/
inductive LockAction (π φ : Type*)
  | open (i : π × ℕ) (lock : FileLock φ)
  | setLock (i : π × ℕ) (fails : Bool)
  | closeRefused (i : π × ℕ)
  | unlock (i : π × ℕ) (fails : Bool)
  | closeUnlocking (i : π × ℕ)
  | exit (p : π)

namespace LockUsers
variable {π φ : Type*} [DecidableEq π]

/-- The `DBImpl` goes on. -/
def goto (u : LockUsers π φ) (kernel : RecordLocks π φ) (i : π × ℕ) (pc : LockPc φ) :
    LockUsers π φ where
  kernel := kernel
  pc := Function.update u.pc i pc

/-- `LockFile` up to `fcntl`. -/
def openStep (u : LockUsers π φ) (i : π × ℕ) (lock : FileLock φ) : Option (LockUsers π φ) :=
  match u.pc i with
  | .closed =>
    if u.kernel.opened (i.1, lock.fd) = none then
      some (u.goto (u.kernel.openFile (i.1, lock.fd) lock.file) i (.opening lock))
    else none
  | _ => none

variable [DecidableEq φ]

/-- The `fcntl` of `LockFile`. -/
def setLockStep (u : LockUsers π φ) (i : π × ℕ) (fails : Bool) : Option (LockUsers π φ) :=
  match u.pc i with
  | .opening lock =>
    if u.kernel.Grants (i.1, lock.fd) ∧ fails = false then
      some (u.goto (u.kernel.setLock (i.1, lock.fd)) i (.locked lock))
    else some (u.goto u.kernel i (.refused lock))
  | _ => none

/-- The `fcntl` of `UnlockFile`, which sets `F_WRLCK` as well. Where it succeeds, the descriptor stays
open. -/
def unlockStep (u : LockUsers π φ) (i : π × ℕ) (fails : Bool) : Option (LockUsers π φ) :=
  match u.pc i with
  | .locked lock =>
    if u.kernel.Grants (i.1, lock.fd) ∧ fails = false then
      some (u.goto (u.kernel.setLock (i.1, lock.fd)) i .closed)
    else some (u.goto u.kernel i (.unlocking lock))
  | _ => none

/-- The end of a process, with all that it has. -/
def exitStep (u : LockUsers π φ) (p : π) : LockUsers π φ where
  kernel := u.kernel.exit p
  pc i := if i.1 = p then .closed else u.pc i

/-- One system call. -/
def step (a : LockAction π φ) (u : LockUsers π φ) : Option (LockUsers π φ) :=
  match a with
  | .open i lock => u.openStep i lock
  | .setLock i fails => u.setLockStep i fails
  | .closeRefused i =>
    match u.pc i with
    | .refused lock => some (u.goto (u.kernel.close (i.1, lock.fd)) i .closed)
    | _ => none
  | .unlock i fails => u.unlockStep i fails
  | .closeUnlocking i =>
    match u.pc i with
    | .unlocking lock => some (u.goto (u.kernel.close (i.1, lock.fd)) i .closed)
    | _ => none
  | .exit p => some (u.exitStep p)

/-- No process opens a database that a `DBImpl` of its own is at. -/
def OpensOnce (u : LockUsers π φ) : LockAction π φ → Prop
  | .open i lock => ∀ j lock', j.1 = i.1 → (u.pc j).lock = some lock' → lock'.file ≠ lock.file
  | _ => True

/-- An `fcntl` fails only because of the lock of another process. -/
def FailsOnConflict : LockAction π φ → Prop
  | .setLock _ fails | .unlock _ fails => fails = false
  | _ => True

/-! ## What every run keeps -/

/-- A `DBImpl` that is at a file has a descriptor of it, the lock belongs to the process of one that is
locked, and no two of a process are at the same file. -/
structure Inv (u : LockUsers π φ) : Prop where
  opened : ∀ i lock, (u.pc i).lock = some lock → u.kernel.opened (i.1, lock.fd) = some lock.file
  owned : ∀ i lock, u.pc i = .locked lock → u.kernel.owner lock.file = some i.1
  once : ∀ i j lock lock', i.1 = j.1 → (u.pc i).lock = some lock → (u.pc j).lock = some lock' →
    lock.file = lock'.file → i = j

variable {u u' v : LockUsers π φ} {i j : π × ℕ} {lock lock' : FileLock φ} {kernel : RecordLocks π φ}
  {pc : LockPc φ} {a : LockAction π φ} {f : φ} {p : π}

omit [DecidableEq π] [DecidableEq φ] in
theorem inv_empty : Inv ({} : LockUsers π φ) :=
  ⟨nofun, nofun, nofun⟩

omit [DecidableEq φ] in
theorem pc_goto_self : (u.goto kernel i pc).pc i = pc := Function.update_self _ _ _

omit [DecidableEq φ] in
theorem pc_goto_of_ne (h : j ≠ i) : (u.goto kernel i pc).pc j = u.pc j := Function.update_of_ne h _ _

omit [DecidableEq φ] in
/-- What is asked of a change at one `DBImpl`. -/
theorem Inv.goto (h : Inv u)
    (hopened : ∀ j ≠ i, ∀ lock, (u.pc j).lock = some lock →
      kernel.opened (j.1, lock.fd) = some lock.file)
    (howned : ∀ j ≠ i, ∀ lock, u.pc j = .locked lock → kernel.owner lock.file = some j.1)
    (hself : ∀ lock, pc.lock = some lock → kernel.opened (i.1, lock.fd) = some lock.file ∧
      ∀ j ≠ i, j.1 = i.1 → ∀ lock', (u.pc j).lock = some lock' → lock'.file ≠ lock.file)
    (hlocked : ∀ lock, pc = .locked lock → kernel.owner lock.file = some i.1) :
    Inv (u.goto kernel i pc) := by
  refine ⟨fun j lock hj => ?_, fun j lock hj => ?_, fun j j' lock lock' hp hj hj' hfile => ?_⟩
  · by_cases hne : j = i
    · subst hne
      rw [pc_goto_self] at hj
      exact (hself lock hj).1
    · rw [pc_goto_of_ne hne] at hj
      exact hopened j hne lock hj
  · by_cases hne : j = i
    · subst hne
      rw [pc_goto_self] at hj
      exact hlocked lock hj
    · rw [pc_goto_of_ne hne] at hj
      exact howned j hne lock hj
  · by_cases hne : j = i
    · by_cases hne' : j' = i
      · rw [hne, hne']
      · subst hne
        rw [pc_goto_self] at hj
        rw [pc_goto_of_ne hne'] at hj'
        exact absurd hfile.symm ((hself lock hj).2 j' hne' hp.symm lock' hj')
    · rw [pc_goto_of_ne hne] at hj
      by_cases hne' : j' = i
      · subst hne'
        rw [pc_goto_self] at hj'
        exact absurd hfile ((hself lock' hj').2 j hne hp lock hj)
      · rw [pc_goto_of_ne hne'] at hj'
        exact h.once j j' lock lock' hp hj hj' hfile

omit [DecidableEq π] [DecidableEq φ] in
/-- No other `DBImpl` of the process is at the file. -/
theorem Inv.file_ne (h : Inv u) (hi : (u.pc i).lock = some lock) (hne : j ≠ i) (hp : j.1 = i.1)
    (hj : (u.pc j).lock = some lock') : lock'.file ≠ lock.file :=
  fun hfile => hne (h.once j i lock' lock hp hj hi hfile)

omit [DecidableEq φ] in
/-- Without a change at the file and the descriptor. -/
theorem Inv.stay (h : Inv u) (hi : (u.pc i).lock = some lock)
    (hpc : ∀ lock', pc.lock = some lock' → lock' = lock)
    (hopened : kernel.opened = u.kernel.opened)
    (howned : ∀ f p, u.kernel.owner f = some p → kernel.owner f = some p)
    (hlocked : ∀ lock, pc = .locked lock → kernel.owner lock.file = some i.1) :
    Inv (u.goto kernel i pc) := by
  refine h.goto (fun j _ lock hj => hopened ▸ h.opened j lock hj)
    (fun j _ lock hj => howned _ _ (h.owned j lock hj)) (fun lock' hself => ?_) hlocked
  obtain rfl := hpc lock' hself
  exact ⟨hopened ▸ h.opened i lock' hi, fun j hne hp lock hj => h.file_ne hi hne hp hj⟩

/-- To close the descriptor of one leaves the others their descriptors and locks. -/
theorem Inv.close (h : Inv u) (hi : (u.pc i).lock = some lock) :
    Inv (u.goto (u.kernel.close (i.1, lock.fd)) i .closed) := by
  refine h.goto (fun j hne lock' hj => ?_) (fun j hne lock' hj => ?_) nofun nofun
  · have hopened := h.opened j lock' hj
    rw [RecordLocks.opened_close_of_ne, hopened]
    intro hd
    obtain ⟨hp, hfd⟩ := Prod.mk.inj hd
    rw [hp, hfd, h.opened i lock hi] at hopened
    exact h.file_ne hi hne hp hj (Option.some.inj hopened).symm
  · refine RecordLocks.owner_close (fun hopened hp => ?_) (h.owned j lock' hj)
    rw [h.opened i lock hi] at hopened
    exact h.file_ne hi hne hp (by rw [hj]; rfl) (Option.some.inj hopened).symm

omit [DecidableEq φ] in
theorem Inv.exit (h : Inv u) (p : π) : Inv (u.exitStep p) := by
  have hpc (i : π × ℕ) : (u.exitStep p).pc i = .closed ∨ i.1 ≠ p ∧ (u.exitStep p).pc i = u.pc i := by
    by_cases hp : i.1 = p
    · exact .inl (if_pos hp)
    · exact .inr ⟨hp, if_neg hp⟩
  have hlock (i : π × ℕ) {lock : FileLock φ} (hi : ((u.exitStep p).pc i).lock = some lock) :
      i.1 ≠ p ∧ (u.pc i).lock = some lock := by
    rcases hpc i with hclosed | ⟨hp, heq⟩
    · rw [hclosed] at hi
      cases hi
    · exact ⟨hp, heq ▸ hi⟩
  refine ⟨fun i lock hi => ?_, fun i lock hi => ?_, fun i j lock lock' hp hi hj => ?_⟩
  · obtain ⟨hp, hi⟩ := hlock i hi
    exact (RecordLocks.opened_exit_of_ne (d := (i.1, lock.fd)) hp).trans (h.opened i lock hi)
  · rcases hpc i with hclosed | ⟨hp, heq⟩
    · rw [hclosed] at hi
      cases hi
    · exact RecordLocks.owner_exit hp (h.owned i lock (heq ▸ hi))
  · exact h.once i j lock lock' hp (hlock i hi).2 (hlock j hj).2

/-- A granted `fcntl`, of `LockFile` or of `UnlockFile`. -/
theorem Inv.setLock (h : Inv u) (hi : (u.pc i).lock = some lock)
    (hgrants : u.kernel.Grants (i.1, lock.fd)) (hpc : ∀ lock', pc.lock = some lock' → lock' = lock) :
    Inv (u.goto (u.kernel.setLock (i.1, lock.fd)) i pc) := by
  refine h.stay hi hpc RecordLocks.opened_setLock (fun f p => RecordLocks.owner_setLock hgrants)
    fun lock' hlocked => ?_
  obtain rfl := hpc lock' (by rw [hlocked]; rfl)
  exact RecordLocks.owner_setLock_self (h.opened i lock' hi)

/-- What a system call can do. -/
inductive Turn (u : LockUsers π φ) : LockAction π φ → LockUsers π φ → Prop
  | opens {i : π × ℕ} {lock : FileLock φ} (hclosed : u.pc i = .closed)
      (hfree : u.kernel.opened (i.1, lock.fd) = none) :
    Turn u (.open i lock) (u.goto (u.kernel.openFile (i.1, lock.fd) lock.file) i (.opening lock))
  | locks {a : LockAction π φ} {i : π × ℕ} {lock : FileLock φ} {pc : LockPc φ}
      (hi : (u.pc i).lock = some lock) (hgrants : u.kernel.Grants (i.1, lock.fd))
      (hpc : pc = .locked lock ∨ pc = .closed) :
    Turn u a (u.goto (u.kernel.setLock (i.1, lock.fd)) i pc)
  | fails {a : LockAction π φ} {i : π × ℕ} {lock : FileLock φ} {pc : LockPc φ}
      (hi : u.pc i = .opening lock ∧ pc = .refused lock ∨ u.pc i = .locked lock ∧ pc = .unlocking lock)
      (hconflict : FailsOnConflict a → ¬ u.kernel.Grants (i.1, lock.fd)) :
    Turn u a (u.goto u.kernel i pc)
  | closes {a : LockAction π φ} {i : π × ℕ} {lock : FileLock φ}
      (hi : u.pc i = .refused lock ∨ u.pc i = .unlocking lock) :
    Turn u a (u.goto (u.kernel.close (i.1, lock.fd)) i .closed)
  | exits (p : π) : Turn u (.exit p) (u.exitStep p)

theorem turn_of_step (hstep : LockUsers.step a u = some u') : Turn u a u' := by
  cases a with
  | «open» i lock =>
    rw [LockUsers.step, openStep] at hstep
    split at hstep
    · next hclosed =>
      split at hstep
      · next hfree =>
        cases hstep
        exact .opens hclosed hfree
      · cases hstep
    · cases hstep
  | setLock i fails =>
    rw [LockUsers.step, setLockStep] at hstep
    split at hstep
    · next lock hopening =>
      split at hstep
      · next hgrants =>
        cases hstep
        exact .locks (by rw [hopening]; rfl) hgrants.1 (.inl rfl)
      · next hnot =>
        cases hstep
        exact .fails (.inl ⟨hopening, rfl⟩) fun hfails hgrants => hnot ⟨hgrants, hfails⟩
    · cases hstep
  | closeRefused i =>
    rw [LockUsers.step] at hstep
    split at hstep
    · next lock hrefused =>
      cases hstep
      exact .closes (.inl hrefused)
    · cases hstep
  | unlock i fails =>
    rw [LockUsers.step, unlockStep] at hstep
    split at hstep
    · next lock hlocked =>
      split at hstep
      · next hgrants =>
        cases hstep
        exact .locks (by rw [hlocked]; rfl) hgrants.1 (.inr rfl)
      · next hnot =>
        cases hstep
        exact .fails (.inr ⟨hlocked, rfl⟩) fun hfails hgrants => hnot ⟨hgrants, hfails⟩
    · cases hstep
  | closeUnlocking i =>
    rw [LockUsers.step] at hstep
    split at hstep
    · next lock hunlocking =>
      cases hstep
      exact .closes (.inr hunlocking)
    · cases hstep
  | exit p =>
    cases hstep
    exact .exits p

theorem Inv.turn (h : Inv u) (hopens : OpensOnce u a) (hturn : Turn u a u') : Inv u' := by
  cases hturn with
  | @opens i lock hclosed hfree =>
    have hne (j : π × ℕ) (lock' : FileLock φ) (hj : (u.pc j).lock = some lock') :
        (j.1, lock'.fd) ≠ (i.1, lock.fd) := by
      intro hd
      have hopened := h.opened j lock' hj
      rw [hd, hfree] at hopened
      cases hopened
    refine h.goto (fun j _ lock' hj => ?_) (fun j _ lock' hj => h.owned j lock' hj)
      (fun lock' hself => ?_) nofun
    · rw [RecordLocks.opened_openFile_of_ne (hne j lock' hj)]
      exact h.opened j lock' hj
    · cases hself
      exact ⟨RecordLocks.opened_openFile_self, fun j _ hp lock' hj => hopens j lock' hp hj⟩
  | locks hi hgrants hpc =>
    refine h.setLock hi hgrants fun lock' heq => ?_
    rcases hpc with rfl | rfl
    · exact (Option.some.inj heq).symm
    · cases heq
  | fails hi _ =>
    rcases hi with ⟨hi, rfl⟩ | ⟨hi, rfl⟩
    · exact h.stay (by rw [hi]; rfl) (fun _ heq => (Option.some.inj heq).symm) rfl (fun _ _ => id) nofun
    · exact h.stay (by rw [hi]; rfl) (fun _ heq => (Option.some.inj heq).symm) rfl (fun _ _ => id) nofun
  | closes hi =>
    rcases hi with hi | hi
    · exact h.close (by rw [hi]; rfl)
    · exact h.close (by rw [hi]; rfl)
  | exits p => exact h.exit p

theorem inv_of_steps (hrun : Steps step OpensOnce ({} : LockUsers π φ) u) : Inv u :=
  hrun.invariant (fun _ _ _ hopens hstep h => h.turn hopens (turn_of_step hstep)) inv_empty

/-- However the calls of all processes interleave, and whichever `fcntl` fails: where no process opens
a database that it is at, no two `DBImpl` have the lock of one file. -/
theorem exclusive (hrun : Steps step OpensOnce ({} : LockUsers π φ) u) (hi : u.pc i = .locked lock)
    (hj : u.pc j = .locked lock') (hfile : lock'.file = lock.file) : j = i := by
  have h := inv_of_steps hrun
  have howner := h.owned j lock' hj
  rw [hfile, h.owned i lock hi] at howner
  exact h.once j i lock' lock (Option.some.inj howner).symm (by rw [hj]; rfl) (by rw [hi]; rfl) hfile

/-! ## How long a lock is kept -/

/-- One that has been refused is of a process without the lock, and none fails to unlock. -/
structure Settled (u : LockUsers π φ) : Prop where
  refused : ∀ i lock, u.pc i = .refused lock → u.kernel.owner lock.file ≠ some i.1
  unlocking : ∀ i lock, u.pc i ≠ .unlocking lock

omit [DecidableEq φ] in
theorem Settled.goto (hs : Settled u) (hunlocking : ∀ lock, pc ≠ .unlocking lock)
    (hself : ∀ lock, pc = .refused lock → kernel.owner lock.file ≠ some i.1)
    (howner : ∀ j ≠ i, ∀ lock, u.pc j = .refused lock → kernel.owner lock.file ≠ some j.1) :
    Settled (u.goto kernel i pc) := by
  refine ⟨fun j lock hj => ?_, fun j lock hj => ?_⟩
  · by_cases hne : j = i
    · subst hne
      exact hself lock (pc_goto_self.symm.trans hj)
    · exact howner j hne lock ((pc_goto_of_ne hne).symm.trans hj)
  · by_cases hne : j = i
    · subst hne
      exact hunlocking lock (pc_goto_self.symm.trans hj)
    · exact hs.unlocking j lock ((pc_goto_of_ne hne).symm.trans hj)

theorem Settled.turn (hs : Settled u) (h : Inv u) (hfails : FailsOnConflict a)
    (hturn : Turn u a u') : Settled u' := by
  cases hturn with
  | opens => exact hs.goto nofun nofun fun j _ lock hj => hs.refused j lock hj
  | @locks _ i lock pc hi hgrants hpc =>
    have hothers : ∀ j ≠ i, ∀ lock', u.pc j = .refused lock' →
        (u.kernel.setLock (i.1, lock.fd)).owner lock'.file ≠ some j.1 := by
      intro j hne lock' hj howner
      by_cases hfile : lock'.file = lock.file
      · rw [hfile, RecordLocks.owner_setLock_self (h.opened i lock hi)] at howner
        exact h.file_ne hi hne (Option.some.inj howner).symm (by rw [hj]; rfl) hfile
      · rw [RecordLocks.owner_setLock_of_ne (h.opened i lock hi) hfile] at howner
        exact hs.refused j lock' hj howner
    rcases hpc with rfl | rfl
    · exact hs.goto nofun nofun hothers
    · exact hs.goto nofun nofun hothers
  | @fails _ i lock pc hi hconflict =>
    rcases hi with ⟨hi, rfl⟩ | ⟨hi, rfl⟩
    · refine hs.goto nofun (fun lock' heq howner => ?_) fun j _ lock hj => hs.refused j lock hj
      cases heq
      exact hconflict hfails (RecordLocks.grants_of_owner (h.opened i lock (by rw [hi]; rfl)) howner)
    · -- the lock of a process is granted to it
      have hgrants := RecordLocks.grants_of_owner (h.opened i lock (by rw [hi]; rfl)) (h.owned i lock hi)
      exact absurd hgrants (hconflict hfails)
  | closes =>
    exact hs.goto nofun nofun fun j _ lock hj howner =>
      hs.refused j lock hj (RecordLocks.owner_of_close howner)
  | exits p =>
    have hpc (i : π × ℕ) {pc : LockPc φ} (hi : (u.exitStep p).pc i = pc) (hne : pc ≠ .closed) :
        u.pc i = pc := by
      by_cases hp : i.1 = p
      · exact absurd (hi.symm.trans (if_pos hp)) hne
      · exact (if_neg hp).symm.trans hi
    exact ⟨fun i lock hi howner => hs.refused i lock (hpc i hi nofun) (RecordLocks.owner_of_exit howner),
      fun i lock hi => hs.unlocking i lock (hpc i hi nofun)⟩

/-- The owner of a file stays its owner until it ends. -/
theorem Settled.owner (hs : Settled u) (h : Inv u) (hturn : Turn u a u')
    (hexit : a ≠ .exit p) (howner : u.kernel.owner f = some p) : u'.kernel.owner f = some p := by
  cases hturn with
  | opens => exact howner
  | locks _ hgrants => exact RecordLocks.owner_setLock hgrants howner
  | fails => exact howner
  | @closes _ i lock hi =>
    rcases hi with hi | hi
    · refine RecordLocks.owner_close (fun hopened hp => hs.refused i lock hi ?_) howner
      rw [h.opened i lock (by rw [hi]; rfl)] at hopened
      rw [Option.some.inj hopened, howner, hp]
    · exact absurd hi (hs.unlocking i lock)
  | exits q => exact RecordLocks.owner_exit (fun hp => hexit (hp ▸ rfl)) howner

/-- What is asked of the calls for a lock to last. -/
def Orderly (u : LockUsers π φ) (a : LockAction π φ) : Prop := OpensOnce u a ∧ FailsOnConflict a

theorem settled_of_steps (hrun : Steps step Orderly ({} : LockUsers π φ) u) : Inv u ∧ Settled u :=
  @Steps.invariant _ _ _ _ _ _ (fun u => Inv u ∧ Settled u)
    (fun _ _ _ ha hstep h =>
      ⟨h.1.turn ha.1 (turn_of_step hstep), h.2.turn h.1 ha.2 (turn_of_step hstep)⟩)
    hrun ⟨inv_empty, nofun, nofun⟩

/-- Once a `DBImpl` has had the lock, its process keeps it to its end, also where `UnlockFile` has
returned: no other process gets it, and each of its attempts is refused. -/
theorem kept_until_exit (hrun : Steps step Orderly ({} : LockUsers π φ) u) (hi : u.pc i = .locked lock)
    (hrun' : Steps step (fun u a => Orderly u a ∧ a ≠ .exit i.1) u v) (hne : j.1 ≠ i.1)
    (hfile : lock'.file = lock.file) :
    v.pc j ≠ .locked lock' ∧ (v.pc j = .opening lock' → ∀ fails,
      step (.setLock j fails) v = some (v.goto v.kernel j (.refused lock'))) := by
  obtain ⟨hinv, hsettled⟩ := settled_of_steps hrun
  obtain ⟨⟨hinv', -⟩, howner⟩ := @Steps.invariant _ _ _ _ _ _
    (fun v => (Inv v ∧ Settled v) ∧ v.kernel.owner lock.file = some i.1)
    (fun _ _ _ ha hstep h => ⟨⟨h.1.1.turn ha.1.1 (turn_of_step hstep),
      h.1.2.turn h.1.1 ha.1.2 (turn_of_step hstep)⟩,
      h.1.2.owner h.1.1 (turn_of_step hstep) ha.2 h.2⟩)
    hrun' ⟨⟨hinv, hsettled⟩, hinv.owned i lock hi⟩
  refine ⟨fun hj => ?_, fun hj fails => ?_⟩
  · have howner' := hinv'.owned j lock' hj
    rw [hfile, howner] at howner'
    exact hne (Option.some.inj howner').symm
  · have hopened := hinv'.opened j lock' (by rw [hj]; rfl)
    have hnot := RecordLocks.not_grants_of_owner hopened (hfile ▸ howner) hne.symm
    rw [step, setLockStep, hj]
    exact if_neg fun hgrants => hnot hgrants.1

/-- Behind the `open` of a `LockFile`, and behind its `fcntl`. -/
def openingFirst : LockUsers ℕ ℕ :=
  ({} : LockUsers ℕ ℕ).goto (({} : RecordLocks ℕ ℕ).openFile (0, 3) 7) (0, 0) (.opening ⟨3, 7⟩)

def lockedFirst : LockUsers ℕ ℕ :=
  openingFirst.goto (openingFirst.kernel.setLock (0, 3)) (0, 0) (.locked ⟨3, 7⟩)

theorem steps_lockedFirst : Steps step Orderly ({} : LockUsers ℕ ℕ) lockedFirst := by
  refine Steps.head (l := .open (0, 0) ⟨3, 7⟩) ⟨?_, trivial⟩ (t := openingFirst) rfl ?_
  · intro j lock _ hj
    cases hj
  · exact Steps.head (l := .setLock (0, 0) false) ⟨trivial, rfl⟩ rfl (.refl _)

theorem opensOnce_lockedFirst : Steps step OpensOnce ({} : LockUsers ℕ ℕ) lockedFirst :=
  steps_lockedFirst.imp fun _ _ h => h.1

theorem pc_lockedFirst {j : ℕ × ℕ} (hj : j ≠ (0, 0)) : lockedFirst.pc j = .closed := by
  rw [lockedFirst, pc_goto_of_ne hj, openingFirst, pc_goto_of_ne hj]

/-- Another process has opened the file, and its `fcntl` has failed. -/
def openingSecond : LockUsers ℕ ℕ :=
  lockedFirst.goto (lockedFirst.kernel.openFile (1, 3) 7) (1, 0) (.opening ⟨3, 7⟩)

def refusedSecond : LockUsers ℕ ℕ :=
  openingSecond.goto openingSecond.kernel (1, 0) (.refused ⟨3, 7⟩)

theorem exclusive_refusedSecond : refusedSecond.pc (0, 0) = .locked ⟨3, 7⟩ ∧
    refusedSecond.pc (1, 0) = .refused ⟨3, 7⟩ ∧
    ∀ j lock, refusedSecond.pc j = .locked lock → lock.file = 7 → j = (0, 0) := by
  have hi : refusedSecond.pc (0, 0) = .locked ⟨3, 7⟩ := rfl
  have hsecond : Steps step OpensOnce lockedFirst refusedSecond := by
    refine Steps.head (l := .open (1, 0) ⟨3, 7⟩) ?_ (t := openingSecond) rfl ?_
    · intro j lock hp hj
      have hne : j ≠ (0, 0) := by
        rintro rfl
        cases hp
      rw [pc_lockedFirst hne] at hj
      cases hj
    · exact Steps.head (l := .setLock (1, 0) false) trivial rfl (.refl _)
  exact ⟨hi, rfl, fun j lock hj hfile => exclusive (opensOnce_lockedFirst.trans hsecond) hi hj hfile⟩

/-- The first has unlocked its file, and another process has opened it. -/
def unlockedFirst : LockUsers ℕ ℕ :=
  lockedFirst.goto (lockedFirst.kernel.setLock (0, 3)) (0, 0) .closed

def openingOther : LockUsers ℕ ℕ :=
  unlockedFirst.goto (unlockedFirst.kernel.openFile (1, 3) 7) (1, 0) (.opening ⟨3, 7⟩)

theorem kept_until_exit_openingOther : openingOther.pc (1, 0) ≠ .locked ⟨3, 7⟩ ∧
    (openingOther.pc (1, 0) = .opening ⟨3, 7⟩ → ∀ fails, step (.setLock (1, 0) fails) openingOther =
      some (openingOther.goto openingOther.kernel (1, 0) (.refused ⟨3, 7⟩))) := by
  have hi : lockedFirst.pc (0, 0) = .locked ⟨3, 7⟩ := rfl
  have hothers (j : ℕ × ℕ) : unlockedFirst.pc j = .closed := by
    by_cases hj : j = (0, 0)
    · rw [hj]
      rfl
    · rw [unlockedFirst, pc_goto_of_ne hj, pc_lockedFirst hj]
  have hrun : Steps step (fun u a => Orderly u a ∧ a ≠ .exit 0) lockedFirst openingOther := by
    refine Steps.head (l := .unlock (0, 0) false) ⟨⟨trivial, rfl⟩, nofun⟩ (t := unlockedFirst) rfl ?_
    refine Steps.head (l := .open (1, 0) ⟨3, 7⟩) ⟨⟨?_, trivial⟩, nofun⟩ rfl (.refl _)
    intro j lock _ hj
    rw [hothers j] at hj
    cases hj
  exact kept_until_exit steps_lockedFirst hi hrun (by decide) rfl

/-- In the same process the lock keeps nobody out. -/
theorem second_opens (hrun : Steps step OpensOnce ({} : LockUsers π φ) u) (hi : u.pc i = .locked lock)
    (hp : j.1 = i.1) (hj : u.pc j = .closed) {fd : ℕ} (hfree : u.kernel.opened (j.1, fd) = none) :
    ∃ v, runAll step [.open j ⟨fd, lock.file⟩, .setLock j false] u = some v ∧
      v.pc i = .locked lock ∧ v.pc j = .locked ⟨fd, lock.file⟩ := by
  have hne : i ≠ j := by
    rintro rfl
    rw [hi] at hj
    cases hj
  let w := u.goto (u.kernel.openFile (j.1, fd) lock.file) j (.opening ⟨fd, lock.file⟩)
  have hgrants : w.kernel.Grants (j.1, fd) :=
    RecordLocks.grants_of_owner RecordLocks.opened_openFile_self
      (hp ▸ (inv_of_steps hrun).owned i lock hi)
  refine ⟨w.goto (w.kernel.setLock (j.1, fd)) j (.locked ⟨fd, lock.file⟩), ?_, ?_, pc_goto_self⟩
  · have hopen : step (.open j ⟨fd, lock.file⟩) u = some w := by
      rw [step, openStep, hj]
      exact if_pos hfree
    have hset : step (.setLock j false) w =
        some (w.goto (w.kernel.setLock (j.1, fd)) j (.locked ⟨fd, lock.file⟩)) := by
      rw [step, setLockStep, show w.pc j = .opening ⟨fd, lock.file⟩ from pc_goto_self]
      exact if_pos ⟨hgrants, rfl⟩
    rw [runAll, hopen, Option.bind_some, runAll, hset]
    rfl
  · rw [pc_goto_of_ne hne, pc_goto_of_ne hne, hi]

theorem second_opens_lockedFirst :
    ∃ v, runAll step [.open (0, 1) ⟨4, 7⟩, .setLock (0, 1) false] lockedFirst = some v ∧
      v.pc (0, 0) = .locked ⟨3, 7⟩ ∧ v.pc (0, 1) = .locked ⟨4, 7⟩ := by
  have hi : lockedFirst.pc (0, 0) = .locked ⟨3, 7⟩ := rfl
  have hj : lockedFirst.pc (0, 1) = .closed := rfl
  have hfree : lockedFirst.kernel.opened (0, 4) = none := rfl
  exact second_opens opensOnce_lockedFirst hi (j := (0, 1)) rfl hj hfree

end LockUsers
end Yubindb
