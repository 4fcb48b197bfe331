import Mathlib.Data.List.Basic
import Mathlib.Data.Nat.Bitwise

/-!
# Bit arrays

Bits in the bytes of a list, the lowest bit of each byte first.
-/

namespace BitArray

/-- Sets the bit `i`. -/
def setBit (a : List UInt8) (i : ℕ) : List UInt8 :=
  a.modify (i / 8) fun b => UInt8.ofNat (b.toNat ||| 1 <<< (i % 8))

/-- Whether the bit `i` is set. -/
def getBit (a : List UInt8) (i : ℕ) : Bool := (a.getD (i / 8) 0).toNat &&& 1 <<< (i % 8) ≠ 0

variable {a : List UInt8} {i j : ℕ}

@[simp] theorem length_setBit (a : List UInt8) (i : ℕ) : (setBit a i).length = a.length :=
  List.length_modify _ _ _

@[simp] theorem length_foldl_setBit (is : List ℕ) (a : List UInt8) :
    (is.foldl setBit a).length = a.length := by
  induction is generalizing a with
  | nil => rfl
  | cons i is ih => rw [List.foldl_cons, ih, length_setBit]

theorem getBit_eq_testBit (a : List UInt8) (i : ℕ) :
    getBit a i = (a.getD (i / 8) 0).toNat.testBit (i % 8) := by
  rw [getBit, Nat.one_shiftLeft, Nat.and_two_pow]
  cases (a.getD (i / 8) 0).toNat.testBit (i % 8) <;> simp

theorem toNat_setBit (b : UInt8) (i : ℕ) :
    (UInt8.ofNat (b.toNat ||| 1 <<< (i % 8))).toNat = b.toNat ||| 2 ^ (i % 8) := by
  have hbit : 2 ^ (i % 8) < 2 ^ 8 := Nat.pow_lt_pow_right (by decide) (Nat.mod_lt i (by decide))
  rw [Nat.one_shiftLeft, UInt8.toNat_ofNat']
  exact Nat.mod_eq_of_lt (Nat.or_lt_two_pow b.toNat_lt hbit)

theorem getBit_setBit (hi : i < a.length * 8) :
    getBit (setBit a i) j = (getBit a j || decide (i = j)) := by
  have hbyte : i / 8 < a.length := by omega
  rw [getBit_eq_testBit, getBit_eq_testBit, setBit]
  by_cases hsame : i / 8 = j / 8
  · rw [← hsame]
    have hget : (a.modify (i / 8) fun b => UInt8.ofNat (b.toNat ||| 1 <<< (i % 8))).getD (i / 8) 0 =
        UInt8.ofNat (a[i / 8].toNat ||| 1 <<< (i % 8)) := by
      simp [List.getD_eq_getElem?_getD, hbyte]
    rw [hget, toNat_setBit, Nat.testBit_or, Nat.testBit_two_pow, List.getD_eq_getElem _ _ hbyte]
    congr 1
    rw [decide_eq_decide]
    omega
  · have hget : (a.modify (i / 8) fun b => UInt8.ofNat (b.toNat ||| 1 <<< (i % 8))).getD (j / 8) 0 =
        a.getD (j / 8) 0 := by
      simp [List.getD_eq_getElem?_getD, hsame]
    have hne : ¬ i = j := fun h => hsame (by rw [h])
    rw [hget, decide_eq_false hne, Bool.or_false]

/-- What is set behind a sequence of settings. -/
theorem getBit_foldl_setBit {is : List ℕ} (his : ∀ i ∈ is, i < a.length * 8) :
    getBit (is.foldl setBit a) j = true ↔ getBit a j = true ∨ j ∈ is := by
  induction is generalizing a with
  | nil => simp
  | cons i is ih =>
    obtain ⟨hi, his⟩ := List.forall_mem_cons.mp his
    rw [List.foldl_cons, ih (by simpa using his), getBit_setBit hi, Bool.or_eq_true,
      decide_eq_true_eq, List.mem_cons, or_assoc, @eq_comm _ i j]

theorem getBit_replicate (n : ℕ) : getBit (List.replicate n 0) j = false := by
  rw [getBit_eq_testBit]
  have : (List.replicate n (0 : UInt8)).getD (j / 8) 0 = 0 := by
    simp [List.getD_eq_getElem?_getD, List.getElem?_replicate]
    split <;> rfl
  rw [this]
  exact Nat.zero_testBit _

theorem getBit_append {b : List UInt8} (hj : j < a.length * 8) : getBit (a ++ b) j = getBit a j := by
  have hbyte : j / 8 < a.length := by omega
  rw [getBit, getBit, List.getD_append _ _ _ _ hbyte]

end BitArray
