import Mathlib.Data.List.Basic

/-!
# What one thread does with a mutex

The events of a thread, in their order, and whether it holds the mutex behind them. It may lock only
what it does not hold, and everything else is for the thread that holds the mutex.
-/

variable {ρ : Type*}

/-- An event of one thread; `ρ` is what the mutex protects. -/
inductive MutexEvent (ρ : Type*) where
  | lock
  | unlock
  /-- A wait on a condition, which releases the mutex and takes it again. -/
  | wait
  | access (resource : ρ)
  deriving DecidableEq, Repr

namespace MutexEvent

/-- Whether the thread holds the mutex behind the event; nothing when the event is not allowed. -/
def next : Bool → MutexEvent ρ → Option Bool
  | false, .lock => some true
  | true, .unlock => some false
  | true, .wait => some true
  | true, .access _ => some true
  | _, _ => none

/-- Whether the thread holds the mutex behind the events. -/
def holds (held : Bool) : List (MutexEvent ρ) → Option Bool
  | [] => some held
  | e :: es => (next held e).bind (holds · es)

/-- All events are allowed, from a thread that does not hold the mutex. -/
def Disciplined (es : List (MutexEvent ρ)) : Prop := (holds false es).isSome

instance (es : List (MutexEvent ρ)) : Decidable (Disciplined es) :=
  inferInstanceAs (Decidable (_ = true))

/-- The destructor of a `std::unique_lock`. -/
def destroy (owns : Bool) : List (MutexEvent ρ) := if owns then [.unlock] else []

theorem holds_append (held : Bool) (es es' : List (MutexEvent ρ)) :
    holds held (es ++ es') = (holds held es).bind (holds · es') := by
  induction es generalizing held with
  | nil => rfl
  | cons e es ih =>
    rw [List.cons_append, holds, holds, Option.bind_assoc]
    exact congrArg _ (funext ih)

end MutexEvent
