import Yubindb.Util.Common

/-!
# Varints and length-prefixed strings

`src/util/common.cpp`. `Put…` functions give the bytes that they append; `Get…` functions give the
value and what is left of the input, or nothing when they return false.
-/

namespace Yubindb
open ByteCodec

/-! ## Encoding -/

/-- `EncodeVarint32`, for `v < 2 ^ 32`. -/
def encodeVarint32 (v : Nat) : Bytes :=
  let B := 128
  if v < 1 <<< 7 then [UInt8.ofNat v]
  else if v < 1 <<< 14 then [UInt8.ofNat (v ||| B), UInt8.ofNat (v >>> 7)]
  else if v < 1 <<< 21 then
    [UInt8.ofNat (v ||| B), UInt8.ofNat ((v >>> 7) ||| B), UInt8.ofNat (v >>> 14)]
  else if v < 1 <<< 28 then
    [UInt8.ofNat (v ||| B), UInt8.ofNat ((v >>> 7) ||| B), UInt8.ofNat ((v >>> 14) ||| B),
      UInt8.ofNat (v >>> 21)]
  else
    [UInt8.ofNat (v ||| B), UInt8.ofNat ((v >>> 7) ||| B), UInt8.ofNat ((v >>> 14) ||| B),
      UInt8.ofNat ((v >>> 21) ||| B), UInt8.ofNat (v >>> 28)]

/-- `EncodeVarint64`. -/
def encodeVarint64 (v : Nat) : Bytes := encode128 v

/-- `VarintLength`. -/
def varintLength (v : Nat) : Nat := if v ≥ 128 then varintLength (v >>> 7) + 1 else 1
termination_by v
decreasing_by
  rw [Nat.shiftRight_eq_div_pow]
  omega

/-- The unrolled encoder computes the same digits as the loop. -/
theorem encodeVarint32_eq {v : Nat} (h : v < 2 ^ 32) : encodeVarint32 v = encode128 v := by
  have hshift (a : Nat) : v >>> a / 128 = v >>> (a + 7) := by
    rw [Nat.shiftRight_eq_div_pow, Nat.shiftRight_eq_div_pow, Nat.div_div_eq_div_mul, Nat.pow_add]
  have h7 : v / 128 = v >>> 7 := (Nat.shiftRight_eq_div_pow v 7).symm
  have hpow : v >>> 7 = v / 128 ∧ v >>> 14 = v / 16384 ∧ v >>> 21 = v / 2097152 ∧
      v >>> 28 = v / 268435456 := by simp [Nat.shiftRight_eq_div_pow]
  obtain ⟨p7, p14, p21, p28⟩ := hpow
  simp only [encodeVarint32, Nat.one_shiftLeft]
  split_ifs with c1 c2 c3 c4
  · rw [encode128_of_lt (by omega)]
  · rw [encode128_of_le (by omega), h7, encode128_of_lt (by omega)]
  · rw [encode128_of_le (by omega), h7, encode128_of_le (by omega), hshift 7,
      encode128_of_lt (by omega)]
  · rw [encode128_of_le (by omega), h7, encode128_of_le (by omega), hshift 7,
      encode128_of_le (by omega), hshift 14, encode128_of_lt (by omega)]
  · rw [encode128_of_le (by omega), h7, encode128_of_le (by omega), hshift 7,
      encode128_of_le (by omega), hshift 14, encode128_of_le (by omega), hshift 21,
      encode128_of_lt (by omega)]

theorem varintLength_eq (v : Nat) : varintLength v = (encode128 v).length := by
  induction v using Nat.strongRecOn with
  | ind v ih =>
    rw [varintLength]
    split
    · next h =>
      rw [encode128_of_le h, List.length_cons, Nat.shiftRight_eq_div_pow, ih _ (by omega)]
    · rw [encode128_of_lt (by omega)]
      rfl

theorem varintLength_of_lt {v : Nat} (h : v < 128) : varintLength v = 1 := by
  rw [varintLength, if_neg (Nat.not_le.mpr h)]

theorem varintLength_pos (v : Nat) : 0 < varintLength v := by
  rw [varintLength]
  split <;> omega

/-- `PutVarint32`, of an argument converted to `uint32_t`. -/
def putVarint32 (v : Nat) : Bytes := encodeVarint32 (v % 2 ^ 32)

/-- `PutVarint64`. -/
def putVarint64 (v : Nat) : Bytes := encodeVarint64 v

/-- `PutLengthPrefixedview`. -/
def putLengthPrefixedview (value : Bytes) : Bytes := putVarint32 value.length ++ value

/-! ## Decoding -/

/-- `GetVarint32PtrFallback`. -/
def getVarint32PtrFallback (p : Bytes) : Option (Nat × Bytes) := decode128 32 28 0 0 p

/-- `GetVarint32Ptr`, with its path for one byte. -/
def getVarint32Ptr (p : Bytes) : Option (Nat × Bytes) :=
  match p with
  | b :: rest => if b.toNat &&& 128 = 0 then some (b.toNat, rest) else getVarint32PtrFallback p
  | [] => getVarint32PtrFallback p

/-- `GetVarint32`. -/
def getVarint32 (input : Bytes) : Option (Nat × Bytes) := getVarint32Ptr input

/-- `GetVarint64Ptr`. -/
def getVarint64Ptr (p : Bytes) : Option (Nat × Bytes) := decode128 64 63 0 0 p

/-- `GetVarint64`. -/
def getVarint64 (input : Bytes) : Option (Nat × Bytes) := getVarint64Ptr input

/-- `GetLengthPrefixedview(std::string_view*, std::string_view*)`. -/
def getLengthPrefixedview (input : Bytes) : Option (Bytes × Bytes) :=
  match getVarint32 input with
  | some (len, input) => if input.length ≥ len then some (input.take len, input.drop len) else none
  | none => none

/-- The path for one byte agrees with the loop. -/
theorem getVarint32_eq (p : Bytes) : getVarint32 p = decode128 32 28 0 0 p := by
  cases p with
  | nil => rfl
  | cons b rest =>
    simp only [getVarint32, getVarint32Ptr, getVarint32PtrFallback]
    split
    · next h =>
      have hb : b.toNat < 2 ^ 32 := Nat.lt_trans b.toNat_lt (by decide)
      simp only [decode128, Nat.zero_le, if_true, h, ne_eq, not_true_eq_false, if_false,
        Nat.shiftLeft_zero, Nat.zero_or, Nat.mod_eq_of_lt hb]
    · rfl

theorem getVarint32_put {v : Nat} (h : v < 2 ^ 32) (rest : Bytes) :
    getVarint32 (putVarint32 v ++ rest) = some (v, rest) := by
  rw [putVarint32, Nat.mod_eq_of_lt h, encodeVarint32_eq h, getVarint32_eq,
    decode128_encode128 (by decide) h (by decide)]

theorem getVarint64_put {v : Nat} (h : v < 2 ^ 64) (rest : Bytes) :
    getVarint64 (putVarint64 v ++ rest) = some (v, rest) :=
  decode128_encode128 (by decide) h (by decide) rest

theorem length_putVarint64_le {v : Nat} (h : v < 2 ^ 64) : (putVarint64 v).length ≤ 10 :=
  length_encode128_le (by decide) (Nat.lt_trans h (by decide))

theorem getLengthPrefixedview_put {value : Bytes} (h : value.length < 2 ^ 32) (rest : Bytes) :
    getLengthPrefixedview (putLengthPrefixedview value ++ rest) = some (value, rest) := by
  rw [getLengthPrefixedview, putLengthPrefixedview, List.append_assoc, getVarint32_put h]
  simp

theorem putVarint32_ne_nil (v : Nat) : putVarint32 v ≠ [] := by
  rw [putVarint32, encodeVarint32_eq (Nat.mod_lt _ (by decide))]
  exact encode128_ne_nil _

theorem length_of_getVarint32 {v : Nat} {input rest : Bytes}
    (h : getVarint32 input = some (v, rest)) : rest.length < input.length := by
  rw [getVarint32_eq] at h
  exact length_of_decode128 h

theorem lt_of_getVarint32 {v : Nat} {input rest : Bytes}
    (h : getVarint32 input = some (v, rest)) : v < 2 ^ 32 := by
  rw [getVarint32_eq] at h
  exact lt_of_decode128 (Nat.two_pow_pos _) h

theorem length_of_getVarint64 {v : Nat} {input rest : Bytes}
    (h : getVarint64 input = some (v, rest)) : rest.length < input.length :=
  length_of_decode128 h

theorem lt_of_getVarint64 {v : Nat} {input rest : Bytes}
    (h : getVarint64 input = some (v, rest)) : v < 2 ^ 64 :=
  lt_of_decode128 (Nat.two_pow_pos _) h

/-- The string and what follows it come out of the input. -/
theorem length_add_of_getLengthPrefixedview {value input rest : Bytes}
    (h : getLengthPrefixedview input = some (value, rest)) :
    value.length + rest.length < input.length := by
  rw [getLengthPrefixedview] at h
  split at h
  · next len tail hget =>
    have htail := length_of_getVarint32 hget
    split at h
    · cases h
      rwa [← List.length_append, List.take_append_drop]
    · cases h
  · cases h

/-- The length of a string was read into a `uint32_t`. -/
theorem length_lt_of_getLengthPrefixedview {value input rest : Bytes}
    (h : getLengthPrefixedview input = some (value, rest)) : value.length < 2 ^ 32 := by
  rw [getLengthPrefixedview] at h
  split at h
  · next hget =>
    split at h
    · cases h
      exact (List.length_take_le _ _).trans_lt (lt_of_getVarint32 hget)
    · cases h
  · cases h

theorem length_of_getLengthPrefixedview {value input rest : Bytes}
    (h : getLengthPrefixedview input = some (value, rest)) : rest.length < input.length :=
  (Nat.le_add_left _ _).trans_lt (length_add_of_getLengthPrefixedview h)

/-! ## The strings that are read -/

/-- A varint of a `uint32_t`: at most five digits, and their number modulo `2 ^ 32`. -/
def IsVarint32 (ds : Bytes) (n : Nat) : Prop :=
  ∃ v, Numeral128 ds v ∧ ds.length ≤ 5 ∧ n = v % 2 ^ 32

/-- A string behind a varint of its length. -/
def IsLengthPrefixed (bytes value : Bytes) : Prop :=
  ∃ ds, IsVarint32 ds value.length ∧ bytes = ds ++ value

theorem getVarint32_eq_some_iff {n : Nat} {input rest : Bytes} :
    getVarint32 input = some (n, rest) ↔ ∃ ds, input = ds ++ rest ∧ IsVarint32 ds n := by
  rw [getVarint32_eq, decode128_eq_some_iff (Nat.two_pow_pos _) (Nat.two_pow_pos _)]
  constructor
  · rintro ⟨ds, v, hinput, hds, hlen, hn⟩
    exact ⟨ds, hinput, v, hds, by omega, by simpa using hn⟩
  · rintro ⟨ds, hinput, v, hds, hlen, hn⟩
    exact ⟨ds, v, hinput, hds, by omega, by simpa using hn⟩

theorem getLengthPrefixedview_eq_some_iff {value input rest : Bytes} :
    getLengthPrefixedview input = some (value, rest) ↔
      ∃ bytes, input = bytes ++ rest ∧ IsLengthPrefixed bytes value := by
  constructor
  · intro h
    rw [getLengthPrefixedview] at h
    split at h
    · next len tail hget =>
      obtain ⟨ds, rfl, hds⟩ := getVarint32_eq_some_iff.mp hget
      split at h
      · next hlen =>
        obtain ⟨rfl, rfl⟩ := Prod.mk.inj (Option.some.inj h)
        refine ⟨ds ++ tail.take len, ?_, ds, ?_, rfl⟩
        · rw [List.append_assoc, List.take_append_drop]
        · rwa [List.length_take_of_le hlen]
      · cases h
    · cases h
  · rintro ⟨_, rfl, ds, hds, rfl⟩
    have hget : getVarint32 (ds ++ value ++ rest) = some (value.length, value ++ rest) :=
      getVarint32_eq_some_iff.mpr ⟨ds, List.append_assoc .., hds⟩
    rw [getLengthPrefixedview, hget]
    simp

theorem zero_mem_putLengthPrefixedview {value : Bytes} (h : value.length < 2 ^ 32) :
    0 ∈ putLengthPrefixedview value ↔ value = [] ∨ 0 ∈ value := by
  rw [putLengthPrefixedview, putVarint32, Nat.mod_eq_of_lt h, encodeVarint32_eq h, List.mem_append,
    zero_mem_encode128, List.length_eq_zero_iff]

/-! ## The codec -/

/-- What `GetVarint32` and `GetVarint64` return, and what they leave in `*input` and `*value`. -/
def advanceVarint (getPtr : Bytes → Option (Nat × Bytes)) (input : Bytes) (value : Nat) :
    Bool × Bytes × Nat :=
  match getPtr input with
  | none => (false, input, value)
  | some (v, q) => (true, q, v)

/-- `GetVarint32`. -/
def advanceVarint32 : Bytes → Nat → Bool × Bytes × Nat := advanceVarint getVarint32Ptr

/-- `GetVarint64`. -/
def advanceVarint64 : Bytes → Nat → Bool × Bytes × Nat := advanceVarint getVarint64Ptr

/-- The numbers of `bits` bits are read back, whatever stands behind them, and what is read at all is
at most `most` bytes. -/
structure IsVarintCodec (bits most : Nat) (encode : Nat → Bytes)
    (get : Bytes → Nat → Bool × Bytes × Nat) : Prop where
  get_encode : ∀ v < 2 ^ bits, ∀ rest value, get (encode v ++ rest) value = (true, rest, v)
  length_encode : ∀ v < 2 ^ bits, (encode v).length = varintLength v
  get_any : ∀ input value, get input value = (false, input, value) ∨
    ∃ front rest v, input = front ++ rest ∧ front ≠ [] ∧ front.length ≤ most ∧
      get input value = (true, rest, v)

/-- Any bytes: the decoder stops at its last shift. -/
theorem advanceVarint_any {getPtr : Bytes → Option (Nat × Bytes)} {bits maxShift most : Nat}
    (hget : ∀ p, getPtr p = decode128 bits maxShift 0 0 p) (hmost : maxShift + 7 ≤ 7 * most + 6)
    (input : Bytes) (value : Nat) : advanceVarint getPtr input value = (false, input, value) ∨
      ∃ front rest v, input = front ++ rest ∧ front ≠ [] ∧ front.length ≤ most ∧
        advanceVarint getPtr input value = (true, rest, v) := by
  rw [advanceVarint]
  cases hptr : getPtr input with
  | none => exact .inl rfl
  | some result =>
    obtain ⟨v, rest⟩ := result
    rw [hget, decode128_eq_some_iff (Nat.two_pow_pos _) (Nat.two_pow_pos _)] at hptr
    obtain ⟨ds, _, hinput, hds, hlen, -⟩ := hptr
    exact .inr ⟨ds, rest, v, hinput, List.length_pos_iff.mp hds.length_pos, by omega, rfl⟩

theorem isVarintCodec_32 : IsVarintCodec 32 5 encodeVarint32 advanceVarint32 where
  get_encode v hv rest value := by
    have hget := getVarint32_put hv rest
    rw [putVarint32, Nat.mod_eq_of_lt hv] at hget
    rw [advanceVarint32, advanceVarint, ← getVarint32, hget]
  length_encode v hv := by rw [encodeVarint32_eq hv, varintLength_eq]
  get_any := advanceVarint_any getVarint32_eq (by decide)

theorem isVarintCodec_64 : IsVarintCodec 64 10 encodeVarint64 advanceVarint64 where
  get_encode v hv rest value := by
    have hget := getVarint64_put hv rest
    rw [putVarint64] at hget
    rw [advanceVarint64, advanceVarint, ← getVarint64, hget]
  length_encode v _ := (varintLength_eq v).symm
  get_any := advanceVarint_any (fun _ => rfl) (by decide)

/-- Both codecs are right, and they encode the numbers of 32 bits alike. -/
theorem varints_codec : IsVarintCodec 32 5 encodeVarint32 advanceVarint32 ∧
    IsVarintCodec 64 10 encodeVarint64 advanceVarint64 ∧
    ∀ v < 2 ^ 32, encodeVarint32 v = encodeVarint64 v :=
  ⟨isVarintCodec_32, isVarintCodec_64, fun _ hv => encodeVarint32_eq hv⟩

end Yubindb
