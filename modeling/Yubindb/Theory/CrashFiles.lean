import Mathlib.Data.List.Basic
import Mathlib.Data.Set.Basic
import Mathlib.Logic.Function.Basic

/-!
# Files and power failures

A directory of files on a medium that lags behind. What is written to a file is on the medium from the
next `fsync` of the file on, and a name from the next `fsync` of the directory on. Of what came since
then, a power failure leaves any of the changes to the directory, and a front of the changes to each
file.
-/

namespace Yubindb

variable {N α : Type*}

/-! ## Files -/

/-- A change to the contents of a file. -/
inductive DataOp (α : Type*)
  | truncate
  | append (data : List α)

namespace DataOp

/-- The contents behind a change. -/
def run (contents : List α) : DataOp α → List α
  | truncate => []
  | append data => contents ++ data

/-- What can be left of changes to `contents`: those at the front, and a front of what the next one
appends. -/
inductive Left : List α → List (DataOp α) → List α → Prop
  | stop (contents ops) : Left contents ops contents
  | torn (contents ops) {data front : List α} (h : front <+: data) :
      Left contents (.append data :: ops) (contents ++ front)
  | next {contents left : List α} {op : DataOp α} {ops : List (DataOp α)}
      (h : Left (op.run contents) ops left) : Left contents (op :: ops) left

variable {contents left : List α}

theorem left_nil : Left contents [] left ↔ left = contents := by
  constructor
  · rintro ⟨⟩
    rfl
  · rintro rfl
    exact .stop _ _

/-- Of data that is appended piece by piece, a front is left. -/
theorem left_append_iff {pieces : List (List α)} :
    Left contents (pieces.map .append) left ↔ ∃ front, front <+: pieces.flatten ∧
      left = contents ++ front := by
  induction pieces generalizing contents with
  | nil =>
    rw [List.map_nil, left_nil, List.flatten_nil]
    constructor
    · rintro rfl
      exact ⟨[], List.prefix_refl _, (List.append_nil _).symm⟩
    · rintro ⟨front, hfront, rfl⟩
      rw [List.prefix_nil.mp hfront, List.append_nil]
  | cons piece pieces ih =>
    rw [List.map_cons, List.flatten_cons]
    constructor
    · intro h
      cases h with
      | stop => exact ⟨[], List.nil_prefix, (List.append_nil _).symm⟩
      | torn _ _ h => exact ⟨_, h.trans (List.prefix_append _ _), rfl⟩
      | next h =>
        obtain ⟨front, hfront, rfl⟩ := ih.mp h
        exact ⟨piece ++ front, (List.prefix_append_right_inj _).mpr hfront,
          List.append_assoc _ _ _⟩
    · rintro ⟨front, hfront, rfl⟩
      rcases List.prefix_or_prefix_of_prefix hfront (List.prefix_append piece pieces.flatten) with
        h | ⟨rest, rfl⟩
      · exact .torn _ _ h
      · refine .next (ih.mpr ⟨rest, (List.prefix_append_right_inj _).mp hfront, ?_⟩)
        exact (List.append_assoc _ _ _).symm

theorem foldl_append (contents : List α) (pieces : List (List α)) :
    (pieces.map .append).foldl run contents = contents ++ pieces.flatten := by
  induction pieces generalizing contents with
  | nil => exact (List.append_nil _).symm
  | cons piece pieces ih => exact (ih _).trans (List.append_assoc _ _ _)

end DataOp

/-- A file: what the last `fsync` has put on the medium, and the changes since. -/
structure Inode (α : Type*) where
  synced : List α := []
  pending : List (DataOp α) := []

namespace Inode

def contents (i : Inode α) : List α := i.pending.foldl DataOp.run i.synced

def change (i : Inode α) (op : DataOp α) : Inode α := { i with pending := i.pending ++ [op] }

def fsync (i : Inode α) : Inode α := { synced := i.contents }

/-- A power failure can make `j` of the file. -/
structure Leaves (i j : Inode α) : Prop where
  synced : DataOp.Left i.synced i.pending j.synced
  pending : j.pending = []

variable {i j : Inode α}

theorem contents_of_pending (h : i.pending = []) : i.contents = i.synced := by
  rw [contents, h, List.foldl_nil]

@[simp] theorem contents_change (i : Inode α) (op : DataOp α) :
    (i.change op).contents = op.run i.contents := List.foldl_append

@[simp] theorem contents_fsync (i : Inode α) : i.fsync.contents = i.contents := rfl

@[simp] theorem pending_fsync (i : Inode α) : i.fsync.pending = [] := rfl

/-- All changes can be left. -/
theorem leaves_contents (i : Inode α) : i.Leaves i.fsync := by
  refine ⟨?_, rfl⟩
  obtain ⟨synced, pending⟩ := i
  show DataOp.Left synced pending (pending.foldl DataOp.run synced)
  induction pending generalizing synced with
  | nil => exact .stop _ _
  | cons op pending ih => exact .next (ih _)

/-- What the medium has is always left. -/
theorem leaves_synced (i : Inode α) : i.Leaves { synced := i.synced } := ⟨.stop _ _, rfl⟩

end Inode

/-! ## The directory -/

/-- A change to the directory. -/
inductive NameOp (N : Type*)
  | link (name : N) (inode : Nat)
  | unlink (name : N)
  | move (src dst : N) (inode : Nat)

namespace NameOp
variable [DecidableEq N]

/-- The names behind a change. -/
def run (names : N → Option Nat) : NameOp N → N → Option Nat
  | link name inode => Function.update names name (some inode)
  | unlink name => Function.update names name none
  | move src dst inode => Function.update (Function.update names src none) dst (some inode)

/-- The change is one of these names. -/
def Within (names : Set N) : NameOp N → Prop
  | link name _ | unlink name => name ∈ names
  | move src dst _ => src ∈ names ∧ dst ∈ names

variable {names : N → Option Nat} {T : Set N} {name : N} {op : NameOp N}

theorem run_of_within (h : op.Within T) (hname : name ∉ T) : op.run names name = names name := by
  have hne {n : N} (hn : n ∈ T) : name ≠ n := fun heq => hname (heq ▸ hn)
  cases op with
  | link n i => exact Function.update_of_ne (hne h) _ _
  | unlink n => exact Function.update_of_ne (hne h) _ _
  | move src dst i =>
    exact (Function.update_of_ne (hne h.2) _ _).trans (Function.update_of_ne (hne h.1) _ _)

theorem foldl_unlink (names : N → Option Nat) (ns : List N) (name : N) :
    (ns.map .unlink).foldl run names name = if name ∈ ns then none else names name := by
  induction ns generalizing names with
  | nil => simp
  | cons n ns ih =>
    rw [List.map_cons, List.foldl_cons, ih, run, Function.update_apply]
    by_cases hname : name = n <;> simp [hname]

end NameOp

/-! ## Volumes -/

/-- A directory, on the medium and in the kernel; the files have numbers below `next`. -/
structure Volume (N α : Type*) where
  inodes : Nat → Inode α := fun _ => {}
  next : Nat := 0
  synced : N → Option Nat := fun _ => none
  pending : List (NameOp N) := []

/-- A call that changes a directory or a file. -/
inductive Syscall (N α : Type*)
  /-- `open` with `O_CREAT` and `O_TRUNC`. -/
  | create (name : N)
  | write (inode : Nat) (data : List α)
  | fsync (inode : Nat)
  | fsyncDir
  | rename (src dst : N)
  | unlink (name : N)
  deriving DecidableEq

namespace Volume
variable [DecidableEq N]

/-- The names that processes see. -/
def names (v : Volume N α) : N → Option Nat := v.pending.foldl NameOp.run v.synced

/-- What a process reads from a file. -/
def read (v : Volume N α) (name : N) : Option (List α) :=
  (v.names name).map fun inode => (v.inodes inode).contents

/-- The number of the file that `create` opens. -/
def fd (v : Volume N α) (name : N) : Nat := (v.names name).getD v.next

/-- One file is changed. -/
def modify (v : Volume N α) (inode : Nat) (f : Inode α → Inode α) : Volume N α :=
  { v with inodes := Function.update v.inodes inode (f (v.inodes inode)) }

/-- The volume behind a call. -/
def run (v : Volume N α) : Syscall N α → Volume N α
  | .create name =>
    match v.names name with
    | some inode => v.modify inode (·.change .truncate)
    | none => { v.modify v.next fun _ => {} with
        next := v.next + 1, pending := v.pending ++ [.link name v.next] }
  | .write inode data => v.modify inode (·.change (.append data))
  | .fsync inode => v.modify inode Inode.fsync
  | .fsyncDir => { v with synced := v.names, pending := [] }
  | .rename src dst =>
    match v.names src with
    | some inode => { v with pending := v.pending ++ [.move src dst inode] }
    | none => v
  | .unlink name => { v with pending := v.pending ++ [.unlink name] }

/-- The volume behind calls. -/
def after (v : Volume N α) (calls : List (Syscall N α)) : Volume N α := calls.foldl run v

/-- A power failure can leave this directory. -/
def Outcome (v : Volume N α) (names : N → Option Nat) : Prop :=
  ∃ ops : List (NameOp N), ops.Sublist v.pending ∧ ops.foldl NameOp.run v.synced = names

/-- A power failure can make `w` of the volume. -/
structure Crash (v w : Volume N α) : Prop where
  inodes : ∀ inode, (v.inodes inode).Leaves (w.inodes inode)
  next : w.next = v.next
  names : v.Outcome w.synced
  pending : w.pending = []

/-- A power failure can leave this file under the name. -/
def MayName (v : Volume N α) (name : N) (inode : Nat) : Prop :=
  ∃ names, v.Outcome names ∧ names name = some inode

variable {v v' w : Volume N α} {name : N} {inode : Nat} {T : Set N}

theorem after_append (v : Volume N α) (calls calls' : List (Syscall N α)) :
    v.after (calls ++ calls') = (v.after calls).after calls' := List.foldl_append

theorem next_le_run (v : Volume N α) (call : Syscall N α) : v.next ≤ (v.run call).next := by
  cases call with
  | create n =>
    rw [run]
    split
    · exact Nat.le_refl _
    · exact Nat.le_succ _
  | rename src dst =>
    rw [run]
    split <;> exact Nat.le_refl _
  | write i data | fsync i | fsyncDir | unlink n => exact Nat.le_refl _

/-- What each of the calls preserves holds behind them. -/
theorem after_invariant {Q : Volume N α → Prop} {calls : List (Syscall N α)}
    (hstep : ∀ v, ∀ call ∈ calls, Q v → Q (v.run call)) (h : Q v) : Q (v.after calls) := by
  induction calls generalizing v with
  | nil => exact h
  | cons call calls ih =>
    obtain ⟨hcall, hcalls⟩ := List.forall_mem_cons.mp fun call hmem v => hstep v call hmem
    exact ih (fun v call hmem => hcalls call hmem v) (hcall v h)

theorem next_le_after (v : Volume N α) (calls : List (Syscall N α)) : v.next ≤ (v.after calls).next :=
  after_invariant (Q := fun v' => v.next ≤ v'.next)
    (fun v' call _ h => h.trans (v'.next_le_run call)) (Nat.le_refl _)

@[simp] theorem names_modify (v : Volume N α) (inode : Nat) (f : Inode α → Inode α) :
    (v.modify inode f).names = v.names := rfl

@[simp] theorem names_write (v : Volume N α) (inode : Nat) (data : List α) :
    (v.run (.write inode data)).names = v.names := rfl

@[simp] theorem names_fsync (v : Volume N α) (inode : Nat) :
    (v.run (.fsync inode)).names = v.names := rfl

theorem run_rename {src dst : N} (h : v.names src = some inode) :
    v.run (.rename src dst) = { v with pending := v.pending ++ [.move src dst inode] } := by
  rw [run, h]

@[simp] theorem names_fsyncDir (v : Volume N α) : (v.run .fsyncDir).names = v.names := rfl

@[simp] theorem names_append (v : Volume N α) (op : NameOp N) :
    ({ v with pending := v.pending ++ [op] } : Volume N α).names = op.run v.names :=
  List.foldl_append

@[simp] theorem names_create (v : Volume N α) (name : N) :
    (v.run (.create name)).names name = some (v.fd name) := by
  cases h : v.names name with
  | some inode => simp only [run, h, names_modify, fd, Option.getD_some]
  | none =>
    simp only [run, h, fd, Option.getD_none]
    exact (congrFun (names_append _ _) name).trans (Function.update_self ..)

@[simp] theorem contents_write (v : Volume N α) (inode : Nat) (data : List α) :
    ((v.run (.write inode data)).inodes inode).contents = (v.inodes inode).contents ++ data := by
  simp only [run, modify, Function.update_self, Inode.contents_change]
  rfl

@[simp] theorem inodes_fsync (v : Volume N α) (inode : Nat) :
    (v.run (.fsync inode)).inodes inode = (v.inodes inode).fsync := Function.update_self ..

@[simp] theorem inodes_fsyncDir (v : Volume N α) : (v.run .fsyncDir).inodes = v.inodes := rfl

/-- A file is empty behind its creation. -/
@[simp] theorem contents_create (v : Volume N α) (name : N) :
    ((v.run (.create name)).inodes (v.fd name)).contents = [] := by
  cases h : v.names name with
  | some inode =>
    simp only [run, h, modify, fd, Option.getD_some, Function.update_self, Inode.contents_change]
    rfl
  | none =>
    simp only [run, h, modify, fd, Option.getD_none, Function.update_self]
    rfl

theorem outcome_names (v : Volume N α) : v.Outcome v.names := ⟨_, List.Sublist.refl _, rfl⟩

theorem mayName_of_names (h : v.names name = some inode) : v.MayName name inode :=
  ⟨_, v.outcome_names, h⟩

/-- Without pending changes, the directory is the one on the medium. -/
theorem outcome_of_pending {names : N → Option Nat} (hv : v.pending = []) (h : v.Outcome names) :
    names = v.synced := by
  obtain ⟨ops, hops, rfl⟩ := h
  rw [hv] at hops
  rw [List.sublist_nil.mp hops, List.foldl_nil]

/-- A change that is pending is either left out or the last one. -/
theorem outcome_append {names : N → Option Nat} {op : NameOp N}
    (h : ({ v with pending := v.pending ++ [op] } : Volume N α).Outcome names) :
    ∃ names₀, v.Outcome names₀ ∧ (names = names₀ ∨ names = op.run names₀) := by
  obtain ⟨ops, hops, rfl⟩ := h
  obtain ⟨front, last, rfl, hfront, hlast⟩ := List.sublist_append_iff.mp hops
  refine ⟨_, ⟨front, hfront, rfl⟩, ?_⟩
  rw [List.foldl_append]
  rcases List.sublist_singleton.mp hlast with rfl | rfl
  · exact .inl rfl
  · exact .inr rfl

theorem Crash.names_eq (h : Crash v w) : w.names = w.synced := by
  rw [Volume.names, h.pending, List.foldl_nil]

theorem Crash.mayName (h : Crash v w) (hname : w.names name = some inode) : v.MayName name inode :=
  ⟨_, h.names, h.names_eq ▸ hname⟩

/-- A power failure behind a change to the directory. -/
theorem Crash.of_append {op : NameOp N}
    (h : Crash ({ v with pending := v.pending ++ [op] } : Volume N α) w) :
    ∃ w₀, Crash v w₀ ∧ w.inodes = w₀.inodes ∧ (w.names = w₀.names ∨ w.names = op.run w₀.names) := by
  obtain ⟨names, hout, heq⟩ := outcome_append h.names
  have hw₀ : Crash v { w with synced := names } := ⟨h.inodes, h.next, hout, h.pending⟩
  refine ⟨_, hw₀, rfl, ?_⟩
  rw [h.names_eq, hw₀.names_eq]
  exact heq

/-- A power failure can leave everything. -/
def settled (v : Volume N α) : Volume N α where
  inodes inode := (v.inodes inode).fsync
  next := v.next
  synced := v.names

theorem crash_settled (v : Volume N α) : Crash v v.settled :=
  ⟨fun inode => (v.inodes inode).leaves_contents, rfl, v.outcome_names, rfl⟩

theorem after_unlink (v : Volume N α) (ns : List N) :
    v.after (ns.map .unlink) = { v with pending := v.pending ++ ns.map .unlink } := by
  induction ns generalizing v with
  | nil => simp [after]
  | cons n ns ih =>
    refine (ih (v.run (.unlink n))).trans ?_
    simp [run]

/-- A power failure can leave out the changes that are pending, and not the deletions behind them. -/
theorem exists_crash_unlink (v : Volume N α) (ns : List N) :
    ∃ w, Crash (v.after (ns.map .unlink)) w ∧
      (∀ name, w.names name = if name ∈ ns then none else v.synced name) ∧
      ∀ inode, (w.inodes inode).contents = (v.inodes inode).contents := by
  rw [after_unlink]
  refine ⟨⟨fun inode => (v.inodes inode).fsync, v.next,
    (ns.map NameOp.unlink).foldl NameOp.run v.synced, []⟩,
    ⟨fun inode => (v.inodes inode).leaves_contents, rfl, ⟨_, List.sublist_append_right _ _, rfl⟩, rfl⟩,
    fun name => NameOp.foldl_unlink _ ns name, fun inode => rfl⟩

/-! ## Calls on some of the names -/

/-- The file is new, or one of these names has had it. -/
def Owned (v : Volume N α) (T : Set N) (inode : Nat) : Prop :=
  v.next ≤ inode ∨ ∃ name ∈ T, v.names name = some inode

/-- The files that a power failure can leave under other names are not among them. -/
def Apart (v : Volume N α) (T : Set N) : Prop :=
  ∀ name ∉ T, ∀ inode, v.MayName name inode → ¬ v.Owned T inode

/-- Behind calls on the names of `T`: the other names and their files are as they were. -/
structure Frame (T : Set N) (v v' : Volume N α) : Prop where
  next_le : v.next ≤ v'.next
  names : ∀ name ∉ T, v'.names name = v.names name
  outcome : ∀ names', v'.Outcome names' →
    ∃ names, v.Outcome names ∧ ∀ name ∉ T, names' name = names name
  inodes : ∀ inode, ¬ v.Owned T inode → v'.inodes inode = v.inodes inode
  owned : ∀ name ∈ T, ∀ inode, v'.names name = some inode → v.Owned T inode

/-- The call is on the names of `T` and their files. -/
def Within (T : Set N) (v : Volume N α) : Syscall N α → Prop
  | .create name | .unlink name => name ∈ T
  | .write inode _ | .fsync inode => ∃ name ∈ T, v.names name = some inode
  | .fsyncDir => True
  | .rename src dst => src ∈ T ∧ dst ∈ T

namespace Frame

theorem refl (T : Set N) (v : Volume N α) : Frame T v v where
  next_le := Nat.le_refl _
  names _ _ := rfl
  outcome names' h := ⟨names', h, fun _ _ => rfl⟩
  inodes _ _ := rfl
  owned name hname _ h := .inr ⟨name, hname, h⟩

/-- A change to a file that a name of `T` has. -/
theorem modify (h : Frame T v v') (f : Inode α → Inode α)
    (hinode : ∃ name ∈ T, v'.names name = some inode) : Frame T v (v'.modify inode f) where
  next_le := h.next_le
  names := h.names
  outcome := h.outcome
  inodes i hi := by
    obtain ⟨name, hname, hnames⟩ := hinode
    have hne : i ≠ inode := by
      rintro rfl
      exact hi (h.owned name hname i hnames)
    exact (Function.update_of_ne hne _ _).trans (h.inodes i hi)
  owned := h.owned

/-- A change to the directory. -/
theorem rename (h : Frame T v v') {op : NameOp N} (hop : op.Within T)
    (howned : ∀ name ∈ T, ∀ inode, op.run v'.names name = some inode → v.Owned T inode) :
    Frame T v { v' with pending := v'.pending ++ [op] } := by
  have hnames := names_append v' op
  refine ⟨h.next_le, fun name hname => ?_, fun names' hout => ?_, h.inodes, ?_⟩
  · rw [hnames, NameOp.run_of_within hop hname, h.names name hname]
  · obtain ⟨names₁, hout₁, heq⟩ := outcome_append hout
    obtain ⟨names, hout₀, hsame⟩ := h.outcome names₁ hout₁
    refine ⟨names, hout₀, fun name hname => ?_⟩
    rcases heq with rfl | rfl
    · exact hsame name hname
    · exact (NameOp.run_of_within hop hname).trans (hsame name hname)
  · rw [hnames]
    exact howned

theorem run (h : Frame T v v') {call : Syscall N α} (hcall : Within T v' call) :
    Frame T v (v'.run call) := by
  cases call with
  | create name =>
    rw [Volume.run]
    split
    · next inode hname => exact h.modify _ ⟨name, hcall, hname⟩
    · next hname =>
      have hnew : Frame T v { v'.modify v'.next fun _ => {} with next := v'.next + 1 } :=
        { next_le := h.next_le.trans (Nat.le_succ _)
          names := h.names
          outcome := h.outcome
          inodes := fun i hi => by
            have hne : i ≠ v'.next := by
              rintro rfl
              exact hi (.inl h.next_le)
            exact (Function.update_of_ne hne _ _).trans (h.inodes i hi)
          owned := h.owned }
      have hlink : (NameOp.link name v'.next).Within T := hcall
      refine hnew.rename hlink fun n hn i hi => ?_
      by_cases heq : n = name
      · subst heq
        rw [NameOp.run, Function.update_self] at hi
        cases hi
        exact .inl h.next_le
      · rw [NameOp.run, Function.update_of_ne heq] at hi
        exact h.owned n hn i hi
  | write inode data => exact h.modify (·.change (.append data)) hcall
  | fsync inode => exact h.modify _ hcall
  | fsyncDir =>
    refine ⟨h.next_le, h.names, fun names' hout => ?_, h.inodes, h.owned⟩
    rw [outcome_of_pending rfl hout]
    exact ⟨v.names, v.outcome_names, h.names⟩
  | rename src dst =>
    rw [Volume.run]
    split
    · next inode hsrc =>
      refine h.rename hcall fun n hn i hi => ?_
      simp only [NameOp.run] at hi
      by_cases hdst : n = dst
      · subst hdst
        rw [Function.update_self] at hi
        cases hi
        exact h.owned src hcall.1 inode hsrc
      · rw [Function.update_of_ne hdst] at hi
        by_cases hsrc' : n = src
        · subst hsrc'
          rw [Function.update_self] at hi
          cases hi
        · rw [Function.update_of_ne hsrc'] at hi
          exact h.owned n hn i hi
    · exact h
  | unlink name =>
    refine h.rename hcall fun n hn i hi => ?_
    simp only [NameOp.run] at hi
    by_cases heq : n = name
    · subst heq
      rw [Function.update_self] at hi
      cases hi
    · rw [Function.update_of_ne heq] at hi
      exact h.owned n hn i hi

/-- The directory has been synced behind the last change to it. -/
theorem fsyncDir (h : Frame T v v') (hv' : v'.pending = []) : Frame T (v.run .fsyncDir) v' where
  next_le := h.next_le
  names := h.names
  outcome names' hout := by
    refine ⟨v.names, outcome_names (v.run .fsyncDir), fun name hname => ?_⟩
    have hnow : v'.names = v'.synced := by rw [Volume.names, hv', List.foldl_nil]
    rw [outcome_of_pending hv' hout, ← hnow, h.names name hname]
  inodes := h.inodes
  owned := h.owned

/-- A power failure leaves of the other names what it can leave of them before the calls. -/
theorem crash (h : Frame T v v') (hapart : v.Apart T) (hcrash : Crash v' w) :
    ∃ w₀, Crash v w₀ ∧ ∀ name ∉ T, w.read name = w₀.read name := by
  obtain ⟨names, hout, hsame⟩ := h.outcome _ hcrash.names
  classical
  let w₀ : Volume N α :=
    { inodes := fun i => if v.Owned T i then { synced := (v.inodes i).synced } else w.inodes i
      next := v.next
      synced := names }
  have hw₀ : Crash v w₀ := by
    refine ⟨fun i => ?_, rfl, hout, rfl⟩
    simp only [w₀]
    split
    · exact (v.inodes i).leaves_synced
    · next hi =>
      rw [← h.inodes i hi]
      exact hcrash.inodes i
  refine ⟨w₀, hw₀, fun name hname => ?_⟩
  have hnames : w.names name = w₀.names name := by
    rw [hcrash.names_eq, hw₀.names_eq]
    exact hsame name hname
  rw [read, read, hnames]
  cases hfile : w₀.names name with
  | none => rfl
  | some i =>
    have hi : ¬ v.Owned T i := hapart name hname i (hw₀.mayName hfile)
    simp only [Option.map_some, w₀, if_neg hi]

theorem read (h : Frame T v v') (hapart : v.Apart T) (hname : name ∉ T) :
    v'.read name = v.read name := by
  rw [Volume.read, Volume.read, h.names name hname]
  cases hfile : v.names name with
  | none => rfl
  | some i =>
    have hi : ¬ v.Owned T i := hapart name hname i (mayName_of_names hfile)
    simp only [Option.map_some, h.inodes i hi]

end Frame

/-- Another file is created. -/
theorem Apart.create {other : N} (h : v.Apart {name}) (hother : v.Apart {other})
    (hne : other ≠ name) : (v.run (.create other)).Apart {name} := by
  rw [Volume.run]
  split
  · exact h
  rintro n hn i ⟨names, hout, hfile⟩ howned
  obtain ⟨names₀, hout₀, heq⟩ := outcome_append hout
  have hnames : ({ v.modify v.next fun _ => {} with
      next := v.next + 1, pending := v.pending ++ [.link other v.next] } : Volume N α).names name =
      v.names name :=
    (congrFun (names_append _ _) name).trans (Function.update_of_ne (Ne.symm hne) _ _)
  have hold (hmay : v.MayName n i) : False := by
    refine h n hn i hmay ?_
    rcases howned with hnew | ⟨t, rfl, ht⟩
    · exact .inl ((Nat.le_succ _).trans hnew)
    · exact .inr ⟨t, rfl, hnames.symm.trans ht⟩
  rcases heq with rfl | rfl
  · exact hold ⟨_, hout₀, hfile⟩
  · rw [NameOp.run] at hfile
    by_cases hself : n = other
    · rw [hself, Function.update_self] at hfile
      cases hfile
      rcases howned with hnew | ⟨t, rfl, ht⟩
      · exact Nat.not_succ_le_self _ hnew
      · -- the file is new
        have hmay : v.MayName t v.next := mayName_of_names (hnames.symm.trans ht)
        exact hother t (Ne.symm hne) v.next hmay (.inl (Nat.le_refl _))
    · rw [Function.update_of_ne hself] at hfile
      exact hold ⟨_, hout₀, hfile⟩

theorem Apart.fsyncDir (h : v.Apart T) : (v.run .fsyncDir).Apart T := by
  rintro name hname inode ⟨names, hout, hfile⟩
  rw [outcome_of_pending rfl hout] at hfile
  exact h name hname inode (mayName_of_names hfile)

/-- Each of the calls is on the names of `T`. -/
def AllWithin (T : Set N) : Volume N α → List (Syscall N α) → Prop
  | _, [] => True
  | v, call :: calls => Within T v call ∧ AllWithin T (v.run call) calls

theorem allWithin_append {calls calls' : List (Syscall N α)} :
    AllWithin T v (calls ++ calls') ↔ AllWithin T v calls ∧ AllWithin T (v.after calls) calls' := by
  induction calls generalizing v with
  | nil => exact (and_iff_right trivial).symm
  | cons call calls ih => exact (and_congr_right' ih).trans and_assoc.symm

theorem AllWithin.mono {T' : Set N} {calls : List (Syscall N α)} (h : AllWithin T v calls)
    (hT : T ⊆ T') : AllWithin T' v calls := by
  induction calls generalizing v with
  | nil => trivial
  | cons call calls ih =>
    refine ⟨?_, ih h.2⟩
    have hcall := h.1
    cases call with
    | create name | unlink name => exact hT hcall
    | write inode data | fsync inode => exact hcall.imp fun _ h => ⟨hT h.1, h.2⟩
    | fsyncDir => trivial
    | rename src dst => exact ⟨hT hcall.1, hT hcall.2⟩

/-- A power failure can come between any two calls. -/
theorem Frame.of_front {calls front : List (Syscall N α)} (h : Frame T v v')
    (hcalls : AllWithin T v' calls) (hfront : front <+: calls) : Frame T v (v'.after front) := by
  induction front generalizing v' calls with
  | nil => exact h
  | cons call front ih =>
    obtain ⟨rest, rfl⟩ := hfront
    exact ih (h.run hcalls.1) hcalls.2 (List.prefix_append _ _)

/-! ## Files that are appended to -/

/-- The file has `kept` on the medium, and `more` has been appended since. -/
structure Appended (v : Volume N α) (inode : Nat) (kept more : List α) : Prop where
  lt : inode < v.next
  synced : (v.inodes inode).synced = kept
  pending : ∃ pieces : List (List α),
    (v.inodes inode).pending = pieces.map .append ∧ pieces.flatten = more

/-- The files that a power failure can leave have numbers below `next`. -/
def Valid (v : Volume N α) : Prop := ∀ name inode, v.MayName name inode → inode < v.next

/-- A power failure leaves the file under the name. -/
def Bound (v : Volume N α) (name : N) (inode : Nat) : Prop :=
  ∀ names, v.Outcome names → names name = some inode

/-- The call is on other names than this one and on other files. -/
def Spares (v : Volume N α) (name : N) (inode : Nat) : Syscall N α → Prop
  | .create n => n ≠ name ∧ v.names n ≠ some inode
  | .write i _ | .fsync i => i ≠ inode
  | .fsyncDir => True
  | .rename src dst => src ≠ name ∧ dst ≠ name
  | .unlink n => n ≠ name

/-- The call is not on a name. -/
def KeepsNames : Syscall N α → Prop
  | .write .. | .fsync _ | .fsyncDir => True
  | .create _ | .rename .. | .unlink _ => False

variable {kept more : List α} {call : Syscall N α}

namespace Appended

theorem write (h : v.Appended inode kept more) (data : List α) :
    (v.run (.write inode data)).Appended inode kept (more ++ data) := by
  obtain ⟨pieces, hpending, rfl⟩ := h.pending
  refine ⟨h.lt, ?_, pieces ++ [data], ?_, ?_⟩
  · simp only [run, modify, Function.update_self]
    exact h.synced
  · simp only [run, modify, Function.update_self, Inode.change, hpending, List.map_append,
      List.map_singleton]
  · rw [List.flatten_append, List.flatten_singleton]

omit [DecidableEq N] in
theorem contents (h : v.Appended inode kept more) : (v.inodes inode).contents = kept ++ more := by
  obtain ⟨pieces, hpending, rfl⟩ := h.pending
  rw [Inode.contents, hpending, h.synced, DataOp.foldl_append]

omit [DecidableEq N] in
theorem of_synced (hlt : inode < v.next) (hpending : (v.inodes inode).pending = []) :
    v.Appended inode (v.inodes inode).contents [] :=
  ⟨hlt, (Inode.contents_of_pending hpending).symm, [], hpending, rfl⟩

theorem fsync (h : v.Appended inode kept more) :
    (v.run (.fsync inode)).Appended inode (kept ++ more) [] := by
  refine ⟨h.lt, ?_, [], ?_, rfl⟩
  · rw [inodes_fsync, ← h.contents]
    rfl
  · rw [inodes_fsync, Inode.pending_fsync, List.map_nil]

theorem fsyncDir (h : v.Appended inode kept more) :
    (v.run .fsyncDir).Appended inode kept more := ⟨h.lt, h.synced, h.pending⟩

/-- A file that has just been created. -/
theorem create (hname : v.names name = none) :
    (v.run (.create name)).Appended v.next [] [] := by
  simp only [run, hname]
  refine ⟨Nat.lt_succ_self _, ?_, [], ?_, rfl⟩
  · simp only [modify, Function.update_self]
  · simp only [modify, Function.update_self, List.map_nil]

theorem spared (h : v.Appended inode kept more) (hcall : v.Spares name inode call) :
    (v.run call).Appended inode kept more := by
  suffices inode < (v.run call).next ∧ (v.run call).inodes inode = v.inodes inode from
    ⟨this.1, this.2 ▸ h.synced, this.2 ▸ h.pending⟩
  cases call with
  | create n =>
    cases hn : v.names n with
    | some i =>
      have hne : inode ≠ i := by
        rintro rfl
        exact hcall.2 hn
      simp only [run, hn, modify]
      exact ⟨h.lt, Function.update_of_ne hne _ _⟩
    | none =>
      simp only [run, hn, modify]
      exact ⟨Nat.lt_succ_of_lt h.lt, Function.update_of_ne (Nat.ne_of_lt h.lt) _ _⟩
  | write i data | fsync i => exact ⟨h.lt, Function.update_of_ne (Ne.symm hcall) _ _⟩
  | rename src dst =>
    rw [run]
    split <;> exact ⟨h.lt, rfl⟩
  | fsyncDir | unlink n => exact ⟨h.lt, rfl⟩

/-- A power failure leaves what is on the medium, and a front of the rest. -/
theorem crash (h : v.Appended inode kept more) (hcrash : Crash v w) :
    ∃ front, front <+: more ∧ (w.inodes inode).contents = kept ++ front := by
  obtain ⟨pieces, hpending, rfl⟩ := h.pending
  have hleaves := hcrash.inodes inode
  have hleft := hleaves.synced
  rw [hpending, DataOp.left_append_iff, h.synced] at hleft
  rw [Inode.contents_of_pending hleaves.pending]
  exact hleft

/-- Each front of the rest can be left, with all other changes. -/
theorem exists_crash (h : v.Appended inode kept more) {front : List α} (hfront : front <+: more) :
    ∃ w, Crash v w ∧ w.names = v.names ∧ (w.inodes inode).contents = kept ++ front ∧
      ∀ i ≠ inode, (w.inodes i).contents = (v.inodes i).contents := by
  obtain ⟨pieces, hpending, rfl⟩ := h.pending
  let torn : Inode α := { synced := kept ++ front }
  let inodes := Function.update (fun i => (v.inodes i).fsync) inode torn
  have hself : inodes inode = torn := Function.update_self ..
  have hother (i : Nat) (hi : i ≠ inode) : inodes i = (v.inodes i).fsync :=
    Function.update_of_ne hi _ _
  refine ⟨⟨inodes, v.next, v.names, []⟩, ⟨fun i => ?_, rfl, v.outcome_names, rfl⟩, rfl,
    congrArg Inode.contents hself, fun i hi => (congrArg Inode.contents (hother i hi)).trans rfl⟩
  show (v.inodes i).Leaves (inodes i)
  by_cases hi : i = inode
  · rw [hi, hself]
    refine ⟨?_, rfl⟩
    rw [hpending, DataOp.left_append_iff, h.synced]
    exact ⟨front, hfront, rfl⟩
  · rw [hother i hi]
    exact (v.inodes i).leaves_contents

end Appended

theorem names_spared (hcall : v.Spares name inode call) : (v.run call).names name = v.names name := by
  cases call with
  | create n =>
    rw [run]
    split
    · rfl
    · exact (congrFun (names_append _ _) name).trans (Function.update_of_ne (Ne.symm hcall.1) _ _)
  | write i data | fsync i | fsyncDir => rfl
  | rename src dst =>
    rw [run]
    split
    · rw [names_append]
      exact (Function.update_of_ne (Ne.symm hcall.2) _ _).trans
        (Function.update_of_ne (Ne.symm hcall.1) _ _)
    · rfl
  | unlink n =>
    exact (congrFun (names_append _ _) name).trans (Function.update_of_ne (Ne.symm hcall) _ _)

theorem Valid.run (h : v.Valid) (call : Syscall N α) : (v.run call).Valid := by
  cases call with
  | create n =>
    rw [Volume.run]
    split
    · exact h
    · rintro name i ⟨names, hout, hname⟩
      obtain ⟨names₀, hout₀, rfl | rfl⟩ := outcome_append hout
      · exact Nat.lt_succ_of_lt (h name i ⟨_, hout₀, hname⟩)
      · rw [NameOp.run, Function.update_apply] at hname
        split at hname
        · cases hname
          exact Nat.lt_succ_self _
        · exact Nat.lt_succ_of_lt (h name i ⟨_, hout₀, hname⟩)
  | write i data | fsync i => exact h
  | fsyncDir =>
    rintro name i ⟨names, hout, hname⟩
    rw [outcome_of_pending rfl hout] at hname
    exact h name i (mayName_of_names hname)
  | rename src dst =>
    rw [Volume.run]
    split
    · next j hsrc =>
      rintro name i ⟨names, hout, hname⟩
      obtain ⟨names₀, hout₀, rfl | rfl⟩ := outcome_append hout
      · exact h name i ⟨_, hout₀, hname⟩
      · rw [NameOp.run, Function.update_apply, Function.update_apply] at hname
        split at hname
        · cases hname
          exact h src j (mayName_of_names hsrc)
        · split at hname
          · cases hname
          · exact h name i ⟨_, hout₀, hname⟩
    · exact h
  | unlink n =>
    rintro name i ⟨names, hout, hname⟩
    obtain ⟨names₀, hout₀, rfl | rfl⟩ := outcome_append hout
    · exact h name i ⟨_, hout₀, hname⟩
    · rw [NameOp.run, Function.update_apply] at hname
      split at hname
      · cases hname
      · exact h name i ⟨_, hout₀, hname⟩

theorem Valid.after (h : v.Valid) (calls : List (Syscall N α)) : (v.after calls).Valid :=
  after_invariant (fun _ call _ hv => hv.run call) h

theorem Apart.after (h : v.Apart T) {calls : List (Syscall N α)}
    (hcalls : ∀ call ∈ calls, KeepsNames call) : (v.after calls).Apart T := by
  refine after_invariant (Q := fun v => v.Apart T) (fun v call hmem hv => ?_) h
  have hcall := hcalls call hmem
  cases call with
  | write i data | fsync i => exact hv
  | fsyncDir => exact hv.fsyncDir
  | create n | unlink n => exact hcall.elim
  | rename src dst => exact hcall.elim

namespace Bound

theorem names (h : v.Bound name inode) : v.names name = some inode := h _ v.outcome_names

/-- The directory is synced. -/
theorem fsyncDir (h : v.names name = some inode) : (v.run .fsyncDir).Bound name inode := by
  intro names hout
  rw [outcome_of_pending rfl hout]
  exact h

theorem rename (h : v.Bound name inode) (op : NameOp N) {T : Set N} (hop : op.Within T)
    (hname : name ∉ T) :
    ({ v with pending := v.pending ++ [op] } : Volume N α).Bound name inode := by
  intro names hout
  obtain ⟨names₀, hout₀, rfl | rfl⟩ := outcome_append hout
  · exact h _ hout₀
  · exact (NameOp.run_of_within hop hname).trans (h _ hout₀)

theorem spared (h : v.Bound name inode) (hcall : v.Spares name inode call) :
    (v.run call).Bound name inode := by
  cases call with
  | create n =>
    rw [run]
    split
    · exact h
    · exact rename (v := { v.modify v.next fun _ => {} with next := v.next + 1 }) h
        (.link n v.next) (T := {n}) rfl (Ne.symm hcall.1)
  | write i data | fsync i => exact h
  | fsyncDir => exact fsyncDir h.names
  | rename src dst =>
    rw [run]
    split
    · next i hi =>
      exact h.rename (.move src dst i) (T := {src, dst}) ⟨.inl rfl, .inr rfl⟩
        fun hmem => hmem.elim (Ne.symm hcall.1) (Ne.symm hcall.2)
    · exact h
  | unlink n => exact h.rename (.unlink n) (T := {n}) rfl (Ne.symm hcall)

theorem after (h : v.Bound name inode) {calls : List (Syscall N α)}
    (hcalls : ∀ call ∈ calls, KeepsNames call) : (v.after calls).Bound name inode := by
  refine after_invariant (Q := fun v => v.Bound name inode) (fun v call hmem hv => ?_) h
  have hcall := hcalls call hmem
  cases call with
  | write i data | fsync i => exact hv
  | fsyncDir => exact fsyncDir hv.names
  | create n | unlink n => exact hcall.elim
  | rename src dst => exact hcall.elim

/-- What a power failure leaves of a file whose name is on the medium. -/
theorem crash (h : v.Bound name inode) (hinode : v.Appended inode kept more) (hcrash : Crash v w) :
    ∃ front, front <+: more ∧ w.read name = some (kept ++ front) := by
  obtain ⟨front, hfront, hcontents⟩ := hinode.crash hcrash
  refine ⟨front, hfront, ?_⟩
  rw [read, hcrash.names_eq, h _ hcrash.names, Option.map_some, hcontents]

end Bound

/-! ## Files on the medium -/

/-- A directory with these files, all on the medium. -/
def ofFiles (files : List (N × List α)) : Volume N α where
  inodes inode := { synced := (files[inode]?.map Prod.snd).getD [] }
  next := files.length
  synced name := files.findIdx? (·.1 = name)

variable {files : List (N × List α)}

theorem exists_of_mayName_ofFiles (h : (ofFiles files).MayName name inode) :
    inode < files.length ∧ ∃ f ∈ files, f.1 = name := by
  obtain ⟨names, hout, hname⟩ := h
  rw [outcome_of_pending rfl hout] at hname
  obtain ⟨hlt, hfile, -⟩ := List.findIdx?_eq_some_iff_getElem.mp hname
  exact ⟨hlt, _, List.getElem_mem hlt, of_decide_eq_true hfile⟩

theorem valid_ofFiles : (ofFiles files).Valid := fun _ _ h => (exists_of_mayName_ofFiles h).1

theorem apart_ofFiles (hT : ∀ f ∈ files, f.1 ∉ T) : (ofFiles files).Apart T := by
  intro name _ inode hmay howned
  rcases howned with hnew | ⟨t, ht, hname⟩
  · exact Nat.not_lt.mpr hnew (exists_of_mayName_ofFiles hmay).1
  · obtain ⟨-, f, hf, rfl⟩ := exists_of_mayName_ofFiles (mayName_of_names hname)
    exact hT f hf ht

end Volume
end Yubindb
