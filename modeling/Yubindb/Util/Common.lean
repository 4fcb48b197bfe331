import Yubindb.Theory.ByteCodec

/-!
# Bytes, return states and fixed-width integers

`src/util/common.h`. A `std::string` or a `std::string_view` is the list of its bytes.
-/

namespace Yubindb
open ByteCodec

abbrev Bytes := List UInt8

/-- `yubindb::State`, by its code. -/
inductive State
  | ok | notFound | corruption | notSupported | invalidArgument | ioError
  deriving DecidableEq, Repr

/-- `EncodeFixed32`: the bytes of a `uint32_t` on a little-endian host. -/
def encodeFixed32 (value : Nat) : Bytes := encodeLE 4 value

/-- `EncodeFixed64`. -/
def encodeFixed64 (value : Nat) : Bytes := encodeLE 8 value

/-- `DecodeFixed32`: the four bytes at the front. -/
def decodeFixed32 (ptr : Bytes) : Nat := decodeLE (ptr.take 4)

/-- `DecodeFixed64`. -/
def decodeFixed64 (ptr : Bytes) : Nat := decodeLE (ptr.take 8)

@[simp] theorem length_encodeFixed32 (v : Nat) : (encodeFixed32 v).length = 4 :=
  length_encodeLE 4 v

@[simp] theorem length_encodeFixed64 (v : Nat) : (encodeFixed64 v).length = 8 :=
  length_encodeLE 8 v

theorem decodeFixed32_encode {v : Nat} (h : v < 2 ^ 32) (rest : Bytes) :
    decodeFixed32 (encodeFixed32 v ++ rest) = v := by
  rw [decodeFixed32, List.take_left' (length_encodeFixed32 v)]
  exact decodeLE_encodeLE_of_lt h

theorem decodeFixed64_encode {v : Nat} (h : v < 2 ^ 64) (rest : Bytes) :
    decodeFixed64 (encodeFixed64 v ++ rest) = v := by
  rw [decodeFixed64, List.take_left' (length_encodeFixed64 v)]
  exact decodeLE_encodeLE_of_lt h

/-- The lower half of eight bytes. -/
theorem decodeFixed64_encodeFixed32 {v : Nat} (h : v < 2 ^ 32) (rest : Bytes) :
    decodeFixed64 (encodeFixed32 v ++ rest) % 2 ^ 32 = v := by
  have htake : (encodeFixed32 v ++ rest).take 8 = encodeFixed32 v ++ rest.take 4 := by
    rw [List.take_append, length_encodeFixed32, List.take_of_length_le (by simp)]
  have hmod : decodeLE (encodeFixed32 v) = v := decodeLE_encodeLE_of_lt h
  rw [decodeFixed64, htake, decodeLE_append, length_encodeFixed32, hmod]
  omega

theorem length_flatMap_encodeFixed32 (l : List Nat) : (l.flatMap encodeFixed32).length = l.length * 4 := by
  induction l with
  | nil => rfl
  | cons a l ih => rw [List.flatMap_cons, List.length_append, ih, length_encodeFixed32,
      List.length_cons]; omega

theorem drop_flatMap_encodeFixed32 (l : List Nat) (i : Nat) :
    (l.flatMap encodeFixed32).drop (i * 4) = (l.drop i).flatMap encodeFixed32 := by
  induction i generalizing l with
  | zero => simp
  | succ i ih =>
    cases l with
    | nil => simp
    | cons a l =>
      rw [List.flatMap_cons, List.drop_succ_cons, ← ih, Nat.succ_mul, Nat.add_comm, ← List.drop_drop,
        List.drop_left' (length_encodeFixed32 a)]

end Yubindb
