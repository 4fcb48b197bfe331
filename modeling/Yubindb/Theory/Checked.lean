import Mathlib.Data.List.Basic

/-!
# Checked operations

Operations that a program may use only within bounds, over naturals and lists. Outside of its bounds
each one fails with the fault that it is, so that a program written with them ends well just where
all of its operations do.
-/

namespace Checked

inductive Fault
  | outside | shift | zero
  deriving DecidableEq, Repr

universe u

variable {α β : Type u}

/-- `n` elements from `offset` on. -/
def slice (data : List α) (offset n : ℕ) : Except Fault (List α) :=
  if offset + n ≤ data.length then .ok ((data.drop offset).take n) else .error .outside

/-- One element. -/
def get (data : List α) (i : ℕ) : Except Fault α := (data[i]?).elim (.error .outside) .ok

/-- The amount of a shift in a word of `w` bits. -/
def shiftAmount (w amount : ℕ) : Except Fault ℕ :=
  if amount < w then .ok amount else .error .shift

/-- A remainder. -/
def mod (x d : ℕ) : Except Fault ℕ := if d = 0 then .error .zero else .ok (x % d)

/-- Whether a computation ends without a fault. -/
def Defined (x : Except Fault α) : Prop := ∃ a, x = .ok a

variable {data : List α} {x : Except Fault α} {f : α → Except Fault β}

@[simp] theorem ok_bind (a : α) : (.ok a >>= f) = f a := rfl

theorem bind_eq_ok {b : β} : (x >>= f) = .ok b ↔ ∃ a, x = .ok a ∧ f a = .ok b := by
  cases x with
  | error e => exact iff_of_false nofun (by rintro ⟨a, ha, -⟩; cases ha)
  | ok a =>
    refine ⟨fun h => ⟨a, rfl, h⟩, ?_⟩
    rintro ⟨a', ha, h⟩
    cases ha
    exact h

theorem defined_ok (a : α) : Defined (.ok a : Except Fault α) := ⟨a, rfl⟩

theorem defined_bind : Defined (x >>= f) ↔ ∃ a, x = .ok a ∧ Defined (f a) := by
  constructor
  · rintro ⟨b, hb⟩
    obtain ⟨a, ha, hf⟩ := bind_eq_ok.mp hb
    exact ⟨a, ha, b, hf⟩
  · rintro ⟨a, ha, b, hb⟩
    exact ⟨b, bind_eq_ok.mpr ⟨a, ha, hb⟩⟩

theorem slice_eq_ok {offset n : ℕ} {bs : List α} :
    slice data offset n = .ok bs ↔ offset + n ≤ data.length ∧ (data.drop offset).take n = bs := by
  rw [slice]
  split
  · next h => simp [h]
  · next h => simp [h]

/-- What stands behind the data does not matter to a slice of it. -/
theorem take_drop_append_of_slice {offset n : ℕ} {bs : List α} (h : slice data offset n = .ok bs)
    (behind : List α) : ((data ++ behind).drop offset).take n = bs := by
  obtain ⟨hlen, rfl⟩ := slice_eq_ok.mp h
  rw [List.drop_append_of_le_length (by omega),
    List.take_append_of_le_length (by rw [List.length_drop]; omega)]

theorem get_of_lt {i : ℕ} (h : i < data.length) : get data i = .ok data[i] := by
  rw [get, List.getElem?_eq_getElem h, Option.elim]

theorem shiftAmount_eq_ok {w amount n : ℕ} :
    shiftAmount w amount = .ok n ↔ amount < w ∧ amount = n := by
  rw [shiftAmount]
  split
  · next h => simp [h]
  · next h => simp [h]

theorem shiftAmount_of_lt {w amount : ℕ} (h : amount < w) : shiftAmount w amount = .ok amount :=
  if_pos h

theorem mod_of_pos {x d : ℕ} (h : 0 < d) : mod x d = .ok (x % d) := if_neg (Nat.ne_of_gt h)

end Checked
