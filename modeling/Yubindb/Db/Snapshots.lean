import Yubindb.Db.Write
import Yubindb.Theory.Steps

/-!
# Snapshots

`DBImpl::GetSnapshot` and `DBImpl::ReleaseSnapshot` in `src/db/db.cpp`, with what `Write` does to the
last sequence number and `DoCompactionWork` makes of the list of snapshots.
-/

namespace Yubindb

/-- `Snapshot`, an object of its own with each `make_shared`. -/
structure Snapshot where
  id : Nat
  sequence : Nat
  deriving DecidableEq, Repr

/-- A call on the database. A snapshot is released by the pointer to it. -/
inductive SnapshotCall
  | write (statue : State) (updates : Option WriteBatch)
  | getSnapshot
  | releaseSnapshot (id : Nat)
  | doCompactionWork
  deriving DecidableEq

/-- `LastSequence()`, `snapshots`, and how many snapshots were made. -/
structure Snapshots where
  lastSequence : Nat
  snapshots : List Snapshot := []
  made : Nat := 0
  deriving DecidableEq, Repr

namespace Snapshots

/-- The end of `Write`, behind the state of `MakeRoomForwrite`. -/
def write (st : Snapshots) (statue : State) (updates : Option WriteBatch) : Snapshots :=
  match statue, updates with
  | .ok, some updates => { st with lastSequence := addCount st.lastSequence updates.count }
  | _, _ => st

/-- The snapshot that `GetSnapshot` returns. -/
def newSnapshot (st : Snapshots) : Snapshot := ⟨st.made, st.lastSequence⟩

/-- `GetSnapshot`. -/
def getSnapshot (st : Snapshots) : Snapshots :=
  { st with snapshots := st.snapshots ++ [st.newSnapshot], made := st.made + 1 }

/-- `ReleaseSnapshot`. -/
def releaseSnapshot (st : Snapshots) (id : Nat) : Snapshots :=
  { st with snapshots := st.snapshots.filter (·.id ≠ id) }

/-- `small_snap` in `DoCompactionWork`. Nothing is defined for `*snapshots.end()`. -/
def smallSnap (st : Snapshots) : Option Nat :=
  if st.snapshots.isEmpty then some st.lastSequence else none

@[simp] theorem snapshots_write (st : Snapshots) (statue : State) (updates : Option WriteBatch) :
    (st.write statue updates).snapshots = st.snapshots := by
  unfold write
  split <;> rfl

@[simp] theorem snapshots_getSnapshot (st : Snapshots) :
    st.getSnapshot.snapshots = st.snapshots ++ [st.newSnapshot] := rfl

@[simp] theorem snapshots_releaseSnapshot (st : Snapshots) (id : Nat) :
    (st.releaseSnapshot id).snapshots = st.snapshots.filter (·.id ≠ id) := rfl

/-- One call. -/
def call (st : Snapshots) : SnapshotCall → Snapshots
  | .write statue updates => st.write statue updates
  | .getSnapshot => st.getSnapshot
  | .releaseSnapshot id => st.releaseSnapshot id
  | .doCompactionWork => st

/-- The calls on a database that was opened with this last sequence number. -/
def run (start : Nat) (calls : List SnapshotCall) : Snapshots :=
  calls.foldl call { lastSequence := start }

/-! ## Unreleased snapshots -/

/-- The calls made the snapshot, and did not release it later. -/
def Unreleased (start : Nat) (calls : List SnapshotCall) (s : Snapshot) : Prop :=
  ∃ pre post, calls = pre ++ .getSnapshot :: post ∧ s = (run start pre).newSnapshot ∧
    .releaseSnapshot s.id ∉ post

variable {start : Nat} {calls : List SnapshotCall} {c : SnapshotCall} {s : Snapshot}

theorem run_append_singleton :
    run start (calls ++ [c]) = (run start calls).call c := List.foldl_append

theorem not_unreleased_nil : ¬ Unreleased start [] s := by
  rintro ⟨pre, post, hnil, -⟩
  exact List.append_ne_nil_of_right_ne_nil pre (List.cons_ne_nil _ post) hnil.symm

theorem unreleased_append_singleton : Unreleased start (calls ++ [c]) s ↔
    Unreleased start calls s ∧ c ≠ .releaseSnapshot s.id ∨
      c = .getSnapshot ∧ s = (run start calls).newSnapshot := by
  constructor
  · rintro ⟨pre, post, heq, hs, hpost⟩
    rcases List.eq_nil_or_concat post with rfl | ⟨post, c', rfl⟩
    · obtain ⟨rfl, hc⟩ := List.append_inj' heq rfl
      cases hc
      exact .inr ⟨rfl, hs⟩
    · rw [List.concat_eq_append] at heq hpost
      have hsplit : calls ++ [c] = (pre ++ .getSnapshot :: post) ++ [c'] := by simp [heq]
      obtain ⟨hcalls, hc⟩ := List.append_inj' hsplit rfl
      cases hc
      rw [List.mem_append, not_or, List.mem_singleton] at hpost
      exact .inl ⟨⟨pre, post, hcalls, hs, hpost.1⟩, Ne.symm hpost.2⟩
  · rintro (⟨⟨pre, post, rfl, hs, hpost⟩, hc⟩ | ⟨rfl, hs⟩)
    · refine ⟨pre, post ++ [c], by simp, hs, ?_⟩
      simp [hpost, hc.symm]
    · exact ⟨calls, [], rfl, hs, List.not_mem_nil⟩

/-- The list holds just the unreleased snapshots. -/
theorem mem_snapshots_iff : s ∈ (run start calls).snapshots ↔ Unreleased start calls s := by
  induction calls using List.reverseRecOn with
  | nil => exact iff_of_false List.not_mem_nil not_unreleased_nil
  | append_singleton calls c ih =>
    rw [run_append_singleton, unreleased_append_singleton, ← ih]
    cases c with
    | write statue updates =>
      rw [call, snapshots_write]
      simp
    | getSnapshot =>
      rw [call, snapshots_getSnapshot, List.mem_append, List.mem_singleton]
      simp only [ne_eq, reduceCtorEq, not_false_eq_true, and_true, true_and]
    | releaseSnapshot id =>
      have hne : SnapshotCall.releaseSnapshot id ≠ .releaseSnapshot s.id ↔ s.id ≠ id := by
        rw [ne_eq, SnapshotCall.releaseSnapshot.injEq, eq_comm]
      rw [call, snapshots_releaseSnapshot, List.mem_filter, hne]
      simp
    | doCompactionWork => simp [call]

/-! ## What compaction respects -/

/-- What `small_snap` is meant to be behind these calls. -/
structure Respects (start : Nat) (calls : List SnapshotCall) (small : Nat) : Prop where
  listed : (run start calls).snapshots ≠ [] →
    ∃ s ∈ (run start calls).snapshots, small = s.sequence
  bounded : ∀ s, Unreleased start calls s → small ≤ s.sequence
  last : (∀ s, ¬ Unreleased start calls s) → small = (run start calls).lastSequence

/-- Behind these calls the list is ascending, and if the last one is that of `DoCompactionWork`, it
has computed a number that respects the snapshots. -/
def Sound (start : Nat) (calls : List SnapshotCall) : Prop :=
  (run start calls).snapshots.Pairwise (·.sequence ≤ ·.sequence) ∧
    ∀ pre, calls = pre ++ [.doCompactionWork] →
      ∃ small, (run start pre).smallSnap = some small ∧ Respects start pre small

/-- `GetSnapshot` finds no unreleased snapshot above the last sequence number, and `DoCompactionWork`
no unreleased snapshot at all. -/
def Admits (start : Nat) (calls : List SnapshotCall) : SnapshotCall → Prop
  | .getSnapshot => ∀ s, Unreleased start calls s → s.sequence ≤ (run start calls).lastSequence
  | .doCompactionWork => ∀ s, ¬ Unreleased start calls s
  | _ => True

theorem snapshots_eq_nil_iff :
    (run start calls).snapshots = [] ↔ ∀ s, ¬ Unreleased start calls s := by
  simp only [← mem_snapshots_iff, List.eq_nil_iff_forall_not_mem]

/-- The number is defined, and then right, exactly when the list is empty. -/
theorem exists_smallSnap_iff :
    (∃ small, (run start calls).smallSnap = some small ∧ Respects start calls small) ↔
      ∀ s, ¬ Unreleased start calls s := by
  rw [← snapshots_eq_nil_iff]
  constructor
  · rintro ⟨small, hsmall, -⟩
    rw [smallSnap, Option.ite_none_right_eq_some] at hsmall
    exact List.isEmpty_iff.mp hsmall.1
  · intro hnil
    refine ⟨_, if_pos (List.isEmpty_iff.mpr hnil), fun hne => absurd hnil hne, ?_, fun _ => rfl⟩
    intro s hs
    exact absurd hs (snapshots_eq_nil_iff.mp hnil s)

theorem sound_append_singleton : Sound start (calls ++ [c]) ↔
    ((run start calls).call c).snapshots.Pairwise (·.sequence ≤ ·.sequence) ∧
      (c = .doCompactionWork → ∀ s, ¬ Unreleased start calls s) := by
  rw [Sound, run_append_singleton, ← exists_smallSnap_iff]
  refine and_congr_right fun _ => ⟨?_, ?_⟩
  · rintro h rfl
    exact h calls rfl
  · intro h pre heq
    obtain ⟨rfl, hc⟩ := List.append_inj' heq rfl
    exact h (List.cons.inj hc).1

/-- Which calls keep a run sound. -/
theorem Sound.append_singleton_iff (h : Sound start calls) (c : SnapshotCall) :
    Sound start (calls ++ [c]) ↔ Admits start calls c := by
  rw [sound_append_singleton]
  cases c with
  | write statue updates => simpa [call, Admits] using h.1
  | getSnapshot =>
    simp only [call, snapshots_getSnapshot, List.pairwise_append, List.mem_singleton, Admits,
      ← mem_snapshots_iff, reduceCtorEq]
    simp [h.1, newSnapshot]
  | releaseSnapshot id => simpa [call, Admits] using h.1.filter _
  | doCompactionWork => simp [call, Admits, h.1]

/-- A write whose count is not negative as an `int` and does not take the sequence number to `2 ^ 64`. -/
def Raises (st : Snapshots) : SnapshotCall → Prop
  | .write .ok (some updates) =>
    0 ≤ updates.count ∧ (st.lastSequence : Int) + updates.count < 2 ^ 64
  | _ => True

theorem lastSequence_le_call {st : Snapshots} (h : st.Raises c) :
    st.lastSequence ≤ (st.call c).lastSequence := by
  cases c with
  | write statue updates =>
    rw [call]
    unfold write
    split
    · obtain ⟨hcount, hlt⟩ := h
      simp only [addCount]
      omega
    · exact Nat.le_refl _
  | getSnapshot => exact Nat.le_refl _
  | releaseSnapshot id => exact Nat.le_refl _
  | doCompactionWork => exact Nat.le_refl _

/-- While the writes raise the last sequence number, no snapshot is above it. -/
theorem unreleased_le (h : ∀ pre c, pre ++ [c] <+: calls → (run start pre).Raises c)
    (hs : Unreleased start calls s) : s.sequence ≤ (run start calls).lastSequence := by
  induction calls using List.reverseRecOn with
  | nil => exact absurd hs not_unreleased_nil
  | append_singleton calls c ih =>
    have hlast := lastSequence_le_call (h calls c (List.prefix_refl _))
    rw [run_append_singleton]
    rcases unreleased_append_singleton.mp hs with ⟨hold, -⟩ | ⟨-, rfl⟩
    · exact (ih (fun pre c' hpre => h pre c' (hpre.trans (List.prefix_append _ _))) hold).trans hlast
    · exact hlast

/-- A run is sound all along exactly when every `GetSnapshot` of it finds no unreleased snapshot above
the last sequence number, which writes that raise the number bring about, and no snapshot is unreleased
at any `DoCompactionWork`. -/
theorem sound_iff (start : Nat) (calls : List SnapshotCall) :
    ((∀ pre, pre <+: calls → Sound start pre) ↔
      ∀ pre c, pre ++ [c] <+: calls → Admits start pre c) ∧
    ((∀ pre c, pre ++ [c] <+: calls → (run start pre).Raises c) →
      ∀ pre, pre ++ [.getSnapshot] <+: calls → Admits start pre .getSnapshot) := by
  constructor
  · refine forall_isPrefix_iff ⟨.nil, fun pre hpre => ?_⟩ (fun pre c h => h.append_singleton_iff c) calls
    exact absurd hpre.symm (List.append_ne_nil_of_right_ne_nil pre (List.cons_ne_nil _ []))
  · intro hraises pre hpre s hs
    refine unreleased_le (fun front c hfront => hraises front c (hfront.trans ?_)) hs
    exact (List.prefix_append _ _).trans hpre

/-- One live snapshot, and a compaction. -/
theorem not_sound : ¬ ∀ (start : Nat) (calls : List SnapshotCall), Sound start calls := by
  intro h
  obtain ⟨small, hsmall, -⟩ := (h 0 [.getSnapshot, .doCompactionWork]).2 [.getSnapshot] rfl
  cases hsmall

end Snapshots
end Yubindb
