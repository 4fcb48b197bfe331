import Yubindb.Theory.BitArray
import Yubindb.Util.Common

/-!
# The Bloom filter

`src/util/bloom.h`, `src/util/bloom.cpp`. `std::hash` is a parameter of which nothing is known.
-/

namespace Yubindb
open BitArray

/-- `BloomFilter`, with the bounds that its constructor puts on `hash_size`. -/
structure BloomFilter where
  bitsKey : ℕ
  hashSize : ℕ
  one_le : 1 ≤ hashSize
  le_thirty : hashSize ≤ 30
  deriving DecidableEq

namespace BloomFilter

/-- The hashes that the loops over `hash_size` see. -/
def probes (delta : UInt32) : ℕ → UInt32 → List UInt32
  | 0, _ => []
  | n + 1, h => h :: probes delta n (h + delta)

/-- The bits that stand for a hash, in an array of `bits` bits. -/
def bitPositions (hashSize bits : ℕ) (h : UInt32) : List ℕ :=
  (probes (h >>> 17 ||| h <<< 15) hashSize h).map fun h => h.toNat % bits

/-- A `size_t` as an `int`. -/
def intOfSize (n : ℕ) : ℤ := (n : ℤ).bmod (2 ^ 32)

/-- The number of bytes for `n` keys, computed in `size_t`s. -/
def arrayLength (f : BloomFilter) (n : ℤ) : ℕ :=
  (max (f.bitsKey * n % 2 ^ 64).toNat 64 + 7) % 2 ^ 64 / 8

/-- `CreateFiler`: what it appends. An array of no bytes stays empty: the remainder by zero is not
defined, but there is no bit to set. -/
def createFilter (f : BloomFilter) (hash : Bytes → UInt32) (keys : List Bytes) : Bytes :=
  let n := intOfSize keys.length
  let bytes := f.arrayLength n
  (keys.take n.toNat).foldl
    (fun a key => (bitPositions f.hashSize (bytes * 8) (hash key)).foldl setBit a)
    (List.replicate bytes 0) ++ [UInt8.ofNat f.hashSize]

/-- `KeyMayMatch`. -/
def keyMayMatch (hash : Bytes → UInt32) (key filter : Bytes) : Bool :=
  let len := filter.length
  if len < 2 then false
  else
    let bits := (len - 1) * 8
    let hashSize := (filter.getD (len - 1) 0).toNat
    if hashSize > 30 then true
    else (bitPositions hashSize bits (hash key)).all (getBit filter)

variable (f : BloomFilter) {hash : Bytes → UInt32} {keys : List Bytes} {key : Bytes}

/-- The keys of which the array gets the bits. -/
def hashed (keys : List Bytes) : List Bytes :=
  if f.arrayLength (intOfSize keys.length) = 0 then []
  else keys.take (intOfSize keys.length).toNat

theorem eight_le_arrayLength {n : ℤ} (h : f.arrayLength n ≠ 0) : 8 ≤ f.arrayLength n := by
  rw [arrayLength] at h ⊢
  omega

/-- Nothing wraps for fewer than `2 ^ 31` keys of a filter that is made from a positive `int`. -/
theorem hashed_eq (hbits : f.bitsKey < 2 ^ 31) (hlen : keys.length < 2 ^ 31) :
    f.hashed keys = keys := by
  have hn : intOfSize keys.length = keys.length := Int.bmod_eq_of_le (by omega) (by omega)
  have hmul : f.bitsKey * keys.length < 2 ^ 31 * 2 ^ 31 := Nat.mul_lt_mul'' hbits hlen
  have hbytes : f.arrayLength (keys.length : ℤ) ≠ 0 := by
    rw [arrayLength, ← Nat.cast_mul]
    omega
  rw [hashed, hn, if_neg hbytes, Int.toNat_natCast, List.take_length]

theorem lt_of_mem_bitPositions {hashSize bits i : ℕ} {h : UInt32} (hbits : 0 < bits)
    (hi : i ∈ bitPositions hashSize bits h) : i < bits := by
  obtain ⟨h', _, rfl⟩ := List.mem_map.mp hi
  exact Nat.mod_lt _ hbits

theorem foldl_setBits {bytes : ℕ} (a : Bytes) :
    keys.foldl (fun a key => (bitPositions f.hashSize (bytes * 8) (hash key)).foldl setBit a) a =
      (keys.flatMap fun key => bitPositions f.hashSize (bytes * 8) (hash key)).foldl setBit a := by
  rw [List.foldl_flatMap]

@[simp] theorem length_createFilter :
    (f.createFilter hash keys).length = f.arrayLength (intOfSize keys.length) + 1 := by
  simp [createFilter, foldl_setBits]

/-- The test answers by the positions of the key alone. -/
theorem keyMayMatch_createFilter :
    keyMayMatch hash key (f.createFilter hash keys) = true ↔
      f.arrayLength (intOfSize keys.length) ≠ 0 ∧
        ∀ i ∈ bitPositions f.hashSize (f.arrayLength (intOfSize keys.length) * 8) (hash key),
          ∃ key' ∈ f.hashed keys,
            i ∈ bitPositions f.hashSize (f.arrayLength (intOfSize keys.length) * 8) (hash key') := by
  have hlen : (f.createFilter hash keys).length = _ := f.length_createFilter
  by_cases hzero : f.arrayLength (intOfSize keys.length) = 0
  · rw [keyMayMatch, if_pos (by omega)]
    exact iff_of_false Bool.false_ne_true fun h => h.1 hzero
  have hbytes := f.eight_le_arrayLength hzero
  rw [hashed, if_neg hzero, and_iff_right hzero]
  generalize hn : intOfSize keys.length = n at hbytes hlen ⊢
  have hsize : ((f.createFilter hash keys).getD ((f.createFilter hash keys).length - 1) 0).toNat =
      f.hashSize := by
    have hlt : f.hashSize < 256 := by have := f.le_thirty; omega
    have : (f.createFilter hash keys).getD ((f.createFilter hash keys).length - 1) 0 =
        UInt8.ofNat f.hashSize := by
      rw [List.getD_eq_getElem?_getD, ← List.getLast?_eq_getElem?, createFilter,
        List.getLast?_concat, Option.getD_some]
    rw [this, UInt8.toNat_ofNat', Nat.mod_eq_of_lt hlt]
  rw [keyMayMatch, if_neg (by omega), hsize, if_neg (by have := f.le_thirty; omega), hlen,
    Nat.add_sub_cancel, List.all_eq_true]
  apply forall₂_congr
  intro i hi
  have hlt := lt_of_mem_bitPositions (by omega) hi
  have harray : ((keys.take n.toNat).foldl (fun a key => (bitPositions f.hashSize
      (f.arrayLength n * 8) (hash key)).foldl setBit a)
        (List.replicate (f.arrayLength n) 0)).length = f.arrayLength n := by
    rw [foldl_setBits, length_foldl_setBit, List.length_replicate]
  rw [createFilter, hn, getBit_append (by rwa [harray]), foldl_setBits, getBit_foldl_setBit,
    getBit_replicate, List.mem_flatMap]
  · simp
  · intro j hj
    obtain ⟨key', _, hj⟩ := List.mem_flatMap.mp hj
    rw [List.length_replicate]
    exact lt_of_mem_bitPositions (by omega) hj

theorem keyMayMatch_of_mem (h : key ∈ f.hashed keys) :
    keyMayMatch hash key (f.createFilter hash keys) = true := by
  refine f.keyMayMatch_createFilter.mpr ⟨fun hzero => ?_, fun i hi => ⟨key, h, hi⟩⟩
  rw [hashed, if_pos hzero] at h
  cases h

/-- A hash under which the test tells this key from all others. -/
def onlyHash (key key' : Bytes) : UInt32 := if key' = key then 1 else 0

theorem eq_zero_of_mem_bitPositions {hashSize bits i : ℕ} (hi : i ∈ bitPositions hashSize bits 0) :
    i = 0 := by
  have hprobes (n : ℕ) : ∀ h ∈ probes 0 n 0, h = 0 := by
    induction n with
    | zero => simp [probes]
    | succ n ih =>
      intro h hh
      rcases List.mem_cons.mp hh with rfl | hh
      · rfl
      · exact ih h hh
  obtain ⟨h, hh, rfl⟩ := List.mem_map.mp hi
  rw [hprobes hashSize h hh]
  exact Nat.zero_mod bits

theorem not_keyMayMatch_of_not_mem (h : key ∉ f.hashed keys) :
    ¬ keyMayMatch (onlyHash key) key (f.createFilter (onlyHash key) keys) = true := by
  rw [keyMayMatch_createFilter]
  rintro ⟨hne, hall⟩
  have hbytes := f.eight_le_arrayLength hne
  have hone : 1 ∈ bitPositions f.hashSize (f.arrayLength (intOfSize keys.length) * 8)
      (onlyHash key key) := by
    obtain ⟨n, hn⟩ := Nat.exists_eq_add_of_le' f.one_le
    rw [onlyHash, if_pos rfl, bitPositions, hn]
    exact List.mem_map.mpr ⟨1, List.mem_cons_self, Nat.mod_eq_of_lt (show 1 < _ by omega)⟩
  obtain ⟨key', hmem, hbit⟩ := hall 1 hone
  have hne : ¬ key' = key := fun heq => h (heq ▸ hmem)
  rw [onlyHash, if_neg hne] at hbit
  exact absurd (eq_zero_of_mem_bitPositions hbit) (by decide)

end BloomFilter
end Yubindb
