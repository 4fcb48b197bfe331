import Mathlib.Data.Nat.Bitwise
import Mathlib.Data.List.Basic
import Mathlib.Tactic.Ring
import Mathlib.Tactic.IntervalCases

/-!
# Numerals over byte strings

Fixed-width little-endian numerals and little-endian base-128 numerals with a continuation bit,
over `List UInt8`. The decoder of a self-delimiting format is stated on a byte string with
arbitrary bytes behind it, so that codecs compose by concatenation.
-/

namespace ByteCodec

/-! ## Fixed width -/

/-- The `n` low bytes of `v`, least significant first. -/
def encodeLE : Nat → Nat → List UInt8
  | 0, _ => []
  | n + 1, v => UInt8.ofNat v :: encodeLE n (v / 256)

/-- The number a byte string spells, least significant byte first. -/
def decodeLE : List UInt8 → Nat
  | [] => 0
  | b :: bs => b.toNat + 256 * decodeLE bs

@[simp] theorem length_encodeLE (n v : Nat) : (encodeLE n v).length = n := by
  induction n generalizing v with
  | zero => rfl
  | succ n ih => simp [encodeLE, ih]

theorem decodeLE_encodeLE (n v : Nat) : decodeLE (encodeLE n v) = v % 256 ^ n := by
  induction n generalizing v with
  | zero => simp [encodeLE, decodeLE, Nat.mod_one]
  | succ n ih =>
    have hmod : v % 256 ^ (n + 1) = v % 256 + 256 * (v / 256 % 256 ^ n) := by
      rw [Nat.pow_succ', Nat.mod_mul]
    simp [encodeLE, decodeLE, ih, hmod]

theorem decodeLE_encodeLE_of_lt {n v : Nat} (h : v < 256 ^ n) : decodeLE (encodeLE n v) = v := by
  rw [decodeLE_encodeLE, Nat.mod_eq_of_lt h]

theorem decodeLE_append (as bs : List UInt8) :
    decodeLE (as ++ bs) = decodeLE as + 256 ^ as.length * decodeLE bs := by
  induction as with
  | nil => simp [decodeLE]
  | cons a as ih =>
    rw [List.cons_append, decodeLE, decodeLE, ih, List.length_cons, Nat.pow_succ', Nat.mul_add,
      Nat.mul_assoc, Nat.add_assoc]

/-- Encoding is the only byte string of its length that spells the number. -/
theorem encodeLE_decodeLE (bs : List UInt8) : encodeLE bs.length (decodeLE bs) = bs := by
  induction bs with
  | nil => rfl
  | cons b bs ih =>
    have hb := b.toNat_lt
    have hdiv : (b.toNat + 256 * decodeLE bs) / 256 = decodeLE bs := by omega
    have hlow : UInt8.ofNat (b.toNat + 256 * decodeLE bs) = b := by
      apply UInt8.toNat_inj.mp
      rw [UInt8.toNat_ofNat']
      omega
    simp [encodeLE, decodeLE, hdiv, hlow, ih]

/-! ## Base 128 -/

/-- Seven bits a byte, least significant first; every byte but the last has its top bit set. -/
def encode128 (v : Nat) : List UInt8 :=
  if v < 128 then [UInt8.ofNat v] else UInt8.ofNat (v ||| 128) :: encode128 (v >>> 7)
termination_by v
decreasing_by
  rw [Nat.shiftRight_eq_div_pow]
  omega

/-- The decoder accumulates in a word of `bits` bits and takes digits at the shifts
`shift, shift + 7, …` up to `maxShift`. -/
def decode128 (bits maxShift : Nat) : Nat → Nat → List UInt8 → Option (Nat × List UInt8)
  | _, _, [] => none
  | shift, acc, b :: bs =>
    if shift ≤ maxShift then
      if b.toNat &&& 128 ≠ 0 then
        decode128 bits maxShift (shift + 7) (acc ||| ((b.toNat &&& 127) <<< shift) % 2 ^ bits) bs
      else some (acc ||| (b.toNat <<< shift) % 2 ^ bits, bs)
    else none

theorem encode128_of_lt {v : Nat} (h : v < 128) : encode128 v = [UInt8.ofNat v] := by
  rw [encode128, if_pos h]

theorem encode128_of_le {v : Nat} (h : 128 ≤ v) :
    encode128 v = UInt8.ofNat (v ||| 128) :: encode128 (v / 128) := by
  rw [encode128, if_neg (Nat.not_lt.mpr h), Nat.shiftRight_eq_div_pow]

theorem encode128_ne_nil (v : Nat) : encode128 v ≠ [] := by
  rw [encode128]
  split <;> simp

/-- A number below `128 ^ n` has at most `n` digits. -/
theorem length_encode128_le {n v : Nat} (hn : 0 < n) (h : v < 128 ^ n) :
    (encode128 v).length ≤ n := by
  induction n generalizing v with
  | zero => cases hn
  | succ n ih =>
    rcases Nat.lt_or_ge v 128 with hlt | hle
    · rw [encode128_of_lt hlt]
      exact hn
    · rw [encode128_of_le hle, List.length_cons]
      refine Nat.succ_le_succ (ih (Nat.pos_of_ne_zero fun hzero => ?_) ?_)
      · rw [hzero] at h
        exact absurd h (Nat.not_lt.mpr hle)
      · exact Nat.div_lt_of_lt_mul (by rwa [Nat.pow_succ'] at h)

/-- A byte with the continuation bit, as a number. -/
theorem toNat_or_128 (v : Nat) : (UInt8.ofNat (v ||| 128)).toNat = v % 128 + 128 := by
  have hsmall : ∀ x < 256, x ||| 128 = x % 128 + 128 := by decide +kernel
  have hmod : (v ||| 128) % 2 ^ 8 = (v % 2 ^ 8) ||| 128 := by rw [Nat.or_mod_two_pow]
  rw [UInt8.toNat_ofNat', hmod, hsmall (v % 2 ^ 8) (Nat.mod_lt _ (by decide))]
  omega

theorem and_128_of_lt {x : Nat} (h : x < 128) : x &&& 128 = 0 := by
  have hsmall : ∀ x < 128, x &&& 128 = 0 := by decide +kernel
  exact hsmall x h

theorem and_128_of_le {x : Nat} (h : 128 ≤ x) (h' : x < 256) : x &&& 128 ≠ 0 := by
  have hsmall : ∀ x < 256, 128 ≤ x → x &&& 128 ≠ 0 := by decide +kernel
  exact hsmall x h' h

theorem and_127 (x : Nat) : x &&& 127 = x % 128 := Nat.and_two_pow_sub_one_eq_mod x 7

/-- A digit lands above an accumulator that has not reached its shift. -/
theorem or_shiftLeft_mod {acc d shift bits : Nat} (hacc : acc < 2 ^ shift)
    (hfit : d * 2 ^ shift < 2 ^ bits) :
    acc ||| (d <<< shift) % 2 ^ bits = acc + d * 2 ^ shift := by
  rw [Nat.shiftLeft_eq, Nat.mod_eq_of_lt hfit, ← Nat.shiftLeft_eq, Nat.or_comm,
    ← Nat.shiftLeft_add_eq_or_of_lt hacc, Nat.shiftLeft_eq, Nat.add_comm]

/-- The loop of the decoder, from any shift. -/
theorem decode128_encode128_from {bits maxShift : Nat} (rest : List UInt8) (v : Nat) :
    ∀ shift acc, shift ≤ maxShift → shift % 7 = maxShift % 7 → acc < 2 ^ shift →
      v < 2 ^ (maxShift + 7 - shift) → acc + v * 2 ^ shift < 2 ^ bits →
      decode128 bits maxShift shift acc (encode128 v ++ rest) =
        some (acc + v * 2 ^ shift, rest) := by
  induction v using Nat.strongRecOn with
  | ind v ih =>
    intro shift acc hshift h7 hacc hv hfit
    by_cases hsmall : v < 128
    · have hb : (UInt8.ofNat v).toNat = v := by
        rw [UInt8.toNat_ofNat', Nat.mod_eq_of_lt (by omega)]
      rw [encode128_of_lt hsmall, List.singleton_append, decode128, if_pos hshift, hb,
        and_128_of_lt hsmall, if_neg (by simp), or_shiftLeft_mod hacc (by omega)]
    · have hlarge : 128 ≤ v := Nat.not_lt.mp hsmall
      -- another byte follows, so the shift has not reached its bound
      have hnext : shift + 7 ≤ maxShift := by
        by_contra hcon
        have hbound : 2 ^ (maxShift + 7 - shift) ≤ 2 ^ 7 :=
          Nat.pow_le_pow_right (by decide) (by omega)
        omega
      have hpow : (2 : Nat) ^ (shift + 7) = 2 ^ shift * 128 := by rw [Nat.pow_add]
      have hsplit : acc + v % 128 * 2 ^ shift + v / 128 * 2 ^ (shift + 7) =
          acc + v * 2 ^ shift := by
        conv_rhs => rw [← Nat.div_add_mod v 128]
        rw [hpow]
        ring
      have hdigit : v % 128 * 2 ^ shift ≤ 127 * 2 ^ shift := Nat.mul_le_mul_right _ (by omega)
      rw [encode128_of_le hlarge, List.cons_append, decode128, if_pos hshift, toNat_or_128,
        if_pos (and_128_of_le (by omega) (by omega)), and_127,
        show (v % 128 + 128) % 128 = v % 128 by omega, or_shiftLeft_mod hacc (by omega),
        ih (v / 128) (by omega) (shift + 7) _ hnext (by omega) (by omega) ?_ (by omega), hsplit]
      rw [Nat.div_lt_iff_lt_mul (by decide),
        show maxShift + 7 - (shift + 7) = maxShift - shift by omega]
      have : (2 : Nat) ^ (maxShift + 7 - shift) = 2 ^ (maxShift - shift) * 128 := by
        rw [show maxShift + 7 - shift = maxShift - shift + 7 by omega, Nat.pow_add]
      omega

/-- Decoding an encoding gives the number and leaves what follows it. -/
theorem decode128_encode128 {bits maxShift v : Nat} (h7 : maxShift % 7 = 0)
    (hv : v < 2 ^ bits) (hlen : bits ≤ maxShift + 7) (rest : List UInt8) :
    decode128 bits maxShift 0 0 (encode128 v ++ rest) = some (v, rest) := by
  have h := @decode128_encode128_from bits maxShift rest v 0 0
    (Nat.zero_le _) (by omega) (by decide)
    (Nat.lt_of_lt_of_le hv (Nat.pow_le_pow_right (by decide) (by omega))) (by omega)
  simpa using h

/-- Decoding consumes at least a byte. -/
theorem length_of_decode128 {bits maxShift shift acc v : Nat} {bs rest : List UInt8}
    (h : decode128 bits maxShift shift acc bs = some (v, rest)) : rest.length < bs.length := by
  induction bs generalizing shift acc with
  | nil => cases h
  | cons b bs ih =>
    simp only [decode128] at h
    split at h
    · split at h
      · have := ih h
        simp only [List.length_cons]
        omega
      · simp only [Option.some.injEq, Prod.mk.injEq] at h
        simp [← h.2]
    · cases h

/-- A decoded number fits the word. -/
theorem lt_of_decode128 {bits maxShift shift acc v : Nat} {bs rest : List UInt8}
    (hacc : acc < 2 ^ bits) (h : decode128 bits maxShift shift acc bs = some (v, rest)) :
    v < 2 ^ bits := by
  induction bs generalizing shift acc with
  | nil => cases h
  | cons b bs ih =>
    have hor (x : Nat) : acc ||| x % 2 ^ bits < 2 ^ bits :=
      Nat.or_lt_two_pow hacc (Nat.mod_lt _ (Nat.two_pow_pos _))
    simp only [decode128] at h
    split at h
    · split at h
      · exact ih (hor _) h
      · simp only [Option.some.injEq, Prod.mk.injEq] at h
        rw [← h.1]
        exact hor _
    · cases h

/-! ## What is decoded -/

/-- A base-128 numeral and its number: every byte but the last has its top bit set. -/
inductive Numeral128 : List UInt8 → Nat → Prop
  | last (b : UInt8) (h : b.toNat < 128) : Numeral128 [b] b.toNat
  | more (b : UInt8) (h : 128 ≤ b.toNat) {bs : List UInt8} {v : Nat} (hbs : Numeral128 bs v) :
    Numeral128 (b :: bs) (b.toNat % 128 + 128 * v)

/-- A digit lands above the accumulator, in a word. -/
theorem or_mod_two_pow {acc d shift bits : Nat} (hacc : acc < 2 ^ shift) (hbits : acc < 2 ^ bits) :
    acc ||| (d <<< shift) % 2 ^ bits = (acc + d * 2 ^ shift) % 2 ^ bits := by
  have hor : acc ||| d <<< shift = acc + d * 2 ^ shift := by
    rw [Nat.or_comm, ← Nat.shiftLeft_add_eq_or_of_lt hacc, Nat.shiftLeft_eq, Nat.add_comm]
  rw [← hor, Nat.or_mod_two_pow, Nat.mod_eq_of_lt hbits]

/-- With a digit the accumulator stays below the next shift. -/
theorem add_digit_lt {acc shift : Nat} (hacc : acc < 2 ^ shift) (b bits : Nat) :
    (acc + b % 128 * 2 ^ shift) % 2 ^ bits < 2 ^ (shift + 7) := by
  have hpow : (2 : Nat) ^ (shift + 7) = 2 ^ shift * 128 := Nat.pow_add 2 shift 7
  have hdigit : b % 128 * 2 ^ shift ≤ 127 * 2 ^ shift := Nat.mul_le_mul_right _ (by omega)
  have hle := Nat.mod_le (acc + b % 128 * 2 ^ shift) (2 ^ bits)
  omega

/-- The digits behind the first one, in a word. -/
theorem add_digit_mod (acc b v shift bits : Nat) :
    ((acc + b % 128 * 2 ^ shift) % 2 ^ bits + v * 2 ^ (shift + 7)) % 2 ^ bits =
      (acc + (b % 128 + 128 * v) * 2 ^ shift) % 2 ^ bits := by
  rw [Nat.mod_add_mod, Nat.pow_add 2 shift 7]
  congr 1
  ring

theorem Numeral128.length_pos {ds : List UInt8} {v : Nat} (h : Numeral128 ds v) :
    0 < ds.length := by
  cases h <;> exact Nat.succ_pos _

/-- What the decoder reads is a numeral that does not go beyond the last shift. -/
theorem decode128_eq_some_iff {bits maxShift shift acc n : Nat} {bs rest : List UInt8}
    (hacc : acc < 2 ^ shift) (hbits : acc < 2 ^ bits) :
    decode128 bits maxShift shift acc bs = some (n, rest) ↔
      ∃ ds v, bs = ds ++ rest ∧ Numeral128 ds v ∧ shift + 7 * ds.length ≤ maxShift + 7 ∧
        n = (acc + v * 2 ^ shift) % 2 ^ bits := by
  induction bs generalizing shift acc with
  | nil =>
    refine iff_of_false nofun ?_
    rintro ⟨ds, v, hnil, hds, -⟩
    obtain ⟨rfl, -⟩ := List.append_eq_nil_iff.mp hnil.symm
    cases hds
  | cons b bs ih =>
    rw [decode128]
    by_cases hshift : shift ≤ maxShift
    · rw [if_pos hshift]
      by_cases hb : b.toNat < 128
      · rw [and_128_of_lt hb, if_neg (by simp), or_mod_two_pow hacc hbits]
        constructor
        · intro h
          obtain ⟨rfl, rfl⟩ := Prod.mk.inj (Option.some.inj h)
          exact ⟨[b], b.toNat, rfl, .last b hb, by simpa using hshift, rfl⟩
        · rintro ⟨ds, v, hbs, hds, -, rfl⟩
          cases hds with
          | last b' =>
            obtain ⟨rfl, rfl⟩ := List.cons.inj hbs
            rfl
          | more b' hb' =>
            obtain ⟨rfl, -⟩ := List.cons.inj hbs
            exact absurd hb (Nat.not_lt.mpr hb')
      · have hb' := Nat.le_of_not_lt hb
        have hsum (v : Nat) := add_digit_mod acc b.toNat v shift bits
        rw [if_pos (and_128_of_le hb' b.toNat_lt), and_127, or_mod_two_pow hacc hbits,
          ih (add_digit_lt hacc _ _) (Nat.mod_lt _ (Nat.two_pow_pos _))]
        constructor
        · rintro ⟨ds, v, rfl, hds, hlen, rfl⟩
          refine ⟨b :: ds, _, rfl, .more b hb' hds, ?_, hsum v⟩
          rw [List.length_cons]
          omega
        · rintro ⟨ds, v, hbs, hds, hlen, rfl⟩
          cases hds with
          | last b' hlt =>
            obtain ⟨rfl, -⟩ := List.cons.inj hbs
            exact absurd hlt hb
          | @more b' _ ds v hds =>
            obtain ⟨rfl, rfl⟩ := List.cons.inj hbs
            rw [List.length_cons] at hlen
            exact ⟨ds, v, rfl, hds, by omega, (hsum v).symm⟩
    · rw [if_neg hshift]
      refine iff_of_false nofun ?_
      rintro ⟨ds, v, -, hds, hlen, -⟩
      have hpos := hds.length_pos
      omega

/-- A canonical numeral has a zero byte only for zero. -/
theorem zero_mem_encode128 {v : Nat} : 0 ∈ encode128 v ↔ v = 0 := by
  induction v using Nat.strongRecOn with
  | ind v ih =>
    by_cases hsmall : v < 128
    · rw [encode128_of_lt hsmall, List.mem_singleton, ← UInt8.toNat_inj, UInt8.toNat_ofNat',
        Nat.mod_eq_of_lt (by omega)]
      exact eq_comm
    · have hlarge := Nat.le_of_not_lt hsmall
      rw [encode128_of_le hlarge, List.mem_cons, ih (v / 128) (by omega), ← UInt8.toNat_inj,
        toNat_or_128]
      have hzero : (0 : UInt8).toNat = 0 := rfl
      omega

end ByteCodec
