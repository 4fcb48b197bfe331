import Mathlib.Data.List.Basic

/-!
# Records in fragments

A record is stored whole, or as a first fragment, middle ones and a last one that follow each other.
-/

inductive Fragment (α : Type*)
  | full (payload : List α)
  | first (payload : List α)
  | middle (payload : List α)
  | last (payload : List α)
  /-- What no record can be read from. -/
  | damaged
  deriving DecidableEq, Repr

namespace Fragment
variable {α : Type*}

/-- The records of the fragments. `begun` is what there is of a record whose last fragment is still
missing; anything but its next fragment ends it. -/
def assemble (begun : Option (List α)) : List (Fragment α) → List (List α)
  | [] => []
  | full payload :: fs => payload :: assemble none fs
  | first payload :: fs => assemble (some payload) fs
  | middle payload :: fs => assemble (begun.map (· ++ payload)) fs
  | last payload :: fs => (begun.map (· ++ payload)).toList ++ assemble none fs
  | damaged :: fs => assemble none fs

theorem assemble_map_full (begun : Option (List α)) (payloads : List (List α)) :
    assemble begun (payloads.map full) = payloads := by
  induction payloads generalizing begun with
  | nil => rfl
  | cons payload payloads ih => exact congrArg (payload :: ·) (ih none)

theorem assemble_middles (payload : List α) (payloads : List (List α)) (fs : List (Fragment α)) :
    assemble (some payload) (payloads.map middle ++ fs) =
      assemble (some (payload ++ payloads.flatten)) fs := by
  induction payloads generalizing payload with
  | nil => simp
  | cons p payloads ih =>
    have hnext := ih (payload ++ p)
    rwa [List.append_assoc] at hnext

/-- A group of fragments is one record. -/
theorem assemble_group (begun : Option (List α)) (p q : List α) (payloads : List (List α))
    (fs : List (Fragment α)) :
    assemble begun (first p :: (payloads.map middle ++ last q :: fs)) =
      (p ++ payloads.flatten ++ q) :: assemble none fs :=
  assemble_middles p payloads _

end Fragment
