import Mathlib.Data.Nat.Notation
import Mathlib.Logic.Function.Basic

/-!
# Locks that processes have on files

Write locks of `fcntl` on whole files. A lock belongs to a process, whichever of its descriptors it was
set through; to close any one of its descriptors of the file gives the lock up, and so does the end of
the process. There is one owner at most, and a process never conflicts with itself.
-/

namespace Yubindb

/-- What a kernel keeps of descriptors and locks; a descriptor is a process and a number. -/
structure RecordLocks (π φ : Type*) where
  opened : π × ℕ → Option φ := fun _ => none
  owner : φ → Option π := fun _ => none

namespace RecordLocks
variable {π φ : Type*} {k : RecordLocks π φ} {d e : π × ℕ} {f g : φ} {p q : π}

/-! ## Opening -/

section
variable [DecidableEq π]

/-- `open`, with a descriptor that is not in use. -/
def openFile (k : RecordLocks π φ) (d : π × ℕ) (f : φ) : RecordLocks π φ :=
  { k with opened := Function.update k.opened d (some f) }

@[simp] theorem opened_openFile_self : (k.openFile d f).opened d = some f :=
  Function.update_self _ _ _

theorem opened_openFile_of_ne (h : e ≠ d) : (k.openFile d f).opened e = k.opened e :=
  Function.update_of_ne h _ _

@[simp] theorem owner_openFile : (k.openFile d f).owner = k.owner := rfl

/-- Whether no other process has a lock on the file. -/
def Grants (k : RecordLocks π φ) (d : π × ℕ) : Prop :=
  (k.opened d).any fun f => k.owner f = none ∨ k.owner f = some d.1

instance : Decidable (k.Grants d) := inferInstanceAs (Decidable (_ = true))

theorem grants_iff (h : k.opened d = some f) :
    k.Grants d ↔ k.owner f = none ∨ k.owner f = some d.1 := by
  rw [Grants, h, Option.any_some, decide_eq_true_iff]

/-- A process is granted what it has. -/
theorem grants_of_owner (h : k.opened d = some f) (howner : k.owner f = some d.1) : k.Grants d :=
  (grants_iff h).mpr (.inr howner)

theorem not_grants_of_owner (h : k.opened d = some f) (howner : k.owner f = some p) (hne : p ≠ d.1) :
    ¬ k.Grants d := by
  rw [grants_iff h, howner]
  rintro (h | h)
  · cases h
  · exact hne (Option.some.inj h)

end

/-! ## Locking -/

section
variable [DecidableEq φ]

/-- `F_SETLK`, where it is granted. -/
def setLock (k : RecordLocks π φ) (d : π × ℕ) : RecordLocks π φ :=
  match k.opened d with
  | some f => { k with owner := Function.update k.owner f (some d.1) }
  | none => k

@[simp] theorem opened_setLock : (k.setLock d).opened = k.opened := by
  rw [setLock]
  split <;> rfl

theorem owner_setLock_self (h : k.opened d = some f) : (k.setLock d).owner f = some d.1 := by
  rw [setLock, h]
  exact Function.update_self _ _ _

theorem owner_setLock_of_ne (h : k.opened d = some f) (hne : g ≠ f) :
    (k.setLock d).owner g = k.owner g := by
  rw [setLock, h]
  exact Function.update_of_ne hne _ _

/-- A lock that is granted takes none away. -/
theorem owner_setLock [DecidableEq π] (hgrants : k.Grants d) (howner : k.owner f = some p) :
    (k.setLock d).owner f = some p := by
  cases hopened : k.opened d with
  | none =>
    rw [Grants, hopened] at hgrants
    cases hgrants
  | some g =>
    by_cases hne : f = g
    · subst hne
      rw [owner_setLock_self hopened, ← howner]
      rcases (grants_iff hopened).mp hgrants with h | h
      · rw [howner] at h
        cases h
      · exact h.symm
    · rw [owner_setLock_of_ne hopened hne, howner]

end

/-! ## Closing -/

section
variable [DecidableEq π]

/-- The end of a process. -/
def exit (k : RecordLocks π φ) (p : π) : RecordLocks π φ where
  opened d := if d.1 = p then none else k.opened d
  owner f := if k.owner f = some p then none else k.owner f

theorem opened_exit_of_ne (h : d.1 ≠ p) : (k.exit p).opened d = k.opened d := if_neg h

theorem owner_exit (hne : p ≠ q) (howner : k.owner f = some p) : (k.exit q).owner f = some p := by
  refine (if_neg ?_).trans howner
  rw [howner]
  exact fun h => hne (Option.some.inj h)

theorem owner_of_exit (h : (k.exit q).owner f = some p) : k.owner f = some p := by
  rw [exit] at h
  dsimp only at h
  split at h
  · cases h
  · exact h

variable [DecidableEq φ]

/-- `close`. -/
def close (k : RecordLocks π φ) (d : π × ℕ) : RecordLocks π φ where
  opened := Function.update k.opened d none
  owner f := if k.opened d = some f ∧ k.owner f = some d.1 then none else k.owner f

theorem opened_close_of_ne (h : e ≠ d) : (k.close d).opened e = k.opened e :=
  Function.update_of_ne h _ _

/-- To close a descriptor takes the lock of its process on its file only. -/
theorem owner_close (hkeeps : k.opened d = some f → p ≠ d.1) (howner : k.owner f = some p) :
    (k.close d).owner f = some p := by
  refine (if_neg ?_).trans howner
  rintro ⟨hopened, hself⟩
  exact hkeeps hopened (Option.some.inj (howner.symm.trans hself))

theorem owner_of_close (h : (k.close d).owner f = some p) : k.owner f = some p := by
  rw [close] at h
  dsimp only at h
  split at h
  · cases h
  · exact h

end

end RecordLocks
end Yubindb
