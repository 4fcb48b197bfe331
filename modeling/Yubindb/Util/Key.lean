import Mathlib.Order.Compare
import Yubindb.Util.Varint

/-!
# Internal keys

`src/util/key.h`, `src/util/key.cpp`: a user key followed by eight bytes that pack a sequence number
and a value type, their order, and the description `FileMate` of a table file.
-/

namespace Yubindb
open Std

/-- `enum Valuetype`. -/
inductive Valuetype
  | deletion | value
  deriving DecidableEq, Repr

/-- The enumerator's value. -/
def Valuetype.code : Valuetype → Nat
  | .deletion => 0
  | .value => 1

/-- `PackSequenceAndType`; also `InternalKey::parser`, which computes the same. -/
def packSequenceAndType (seq : Nat) (t : Valuetype) : Nat := (seq <<< 8) ||| t.code

/-- `InternalKey`. -/
structure InternalKey where
  Key : Bytes
  deriving DecidableEq, Repr

namespace InternalKey

/-- `InternalKey::InternalKey(std::string_view, SequenceNum, Valuetype)`. -/
def new (str : Bytes) (num : Nat) (type : Valuetype) : InternalKey :=
  ⟨str ++ encodeFixed64 (packSequenceAndType num type)⟩

/-- `InternalKey::ExtractUserKey`, `InternalKey::getusrkeyview`. -/
def extractUserKey (k : InternalKey) : Bytes := k.Key.take (k.Key.length - 8)

/-- The last eight bytes as a number: `InternalKey::Getag`. -/
def getag (k : InternalKey) : Nat := decodeFixed64 (k.Key.drop (k.Key.length - 8))

/-- `InternalKey::DecodeFrom`: fails on the empty string. -/
def decodeFrom (s : Bytes) : Option InternalKey := if s = [] then none else some ⟨s⟩

/-- `cmp(const InternalKey&, const InternalKey&)`: the user keys by their bytes, then the larger tag
first. -/
def cmp (a b : InternalKey) : Ordering :=
  (compare a.extractUserKey b.extractUserKey).then (compare b.getag a.getag)

/-- A user key with its tag, short enough for a length prefix. -/
def Encodable (k : InternalKey) : Prop := 8 ≤ k.Key.length ∧ k.Key.length < 2 ^ 32

instance (k : InternalKey) : Decidable k.Encodable := inferInstanceAs (Decidable (_ ∧ _))

theorem Encodable.ne_nil {k : InternalKey} (h : k.Encodable) : k.Key ≠ [] :=
  List.length_pos_iff.mp (Nat.lt_of_lt_of_le (by decide) h.1)

end InternalKey

/-- `kMaxSequenceNumber`. -/
def kMaxSequenceNumber : Nat := (1 <<< 56) - 1

/-- `Lookey`: what stands from `start` to `kstart`, and from there to `end`. The buffer `space` and
one of its own hold the same bytes. -/
structure Lookey where
  start : Bytes
  kstart : Bytes
  deriving DecidableEq, Repr

namespace Lookey

/-- `Lookey::Lookey`. -/
def new (key : Bytes) (seq : Nat) : Lookey where
  start := encodeVarint32 ((key.length + 8) % 2 ^ 32)
  kstart := key ++ encodeFixed64 (packSequenceAndType seq .value)

/-- `Lookey::internal_key`, `Lookey::inter_key`. -/
def internalKey (k : Lookey) : InternalKey := ⟨k.kstart⟩

/-- `Lookey::key`. -/
def key (k : Lookey) : Bytes := k.kstart.take (k.kstart.length - 8)

theorem internalKey_new (key : Bytes) (seq : Nat) :
    (new key seq).internalKey = .new key seq .value := rfl

end Lookey

/-- `FileMate`. -/
structure FileMate where
  num : Nat
  fileSize : Nat
  smallest : InternalKey
  largest : InternalKey
  deriving DecidableEq, Repr

/-- The numbers fit `uint64_t` and the keys are internal keys. -/
structure FileMate.Encodable (f : FileMate) : Prop where
  num : f.num < 2 ^ 64
  fileSize : f.fileSize < 2 ^ 64
  smallest : f.smallest.Encodable
  largest : f.largest.Encodable

/-! ## The order of internal keys -/

theorem packSequenceAndType_eq (seq : Nat) (t : Valuetype) :
    packSequenceAndType seq t = seq * 256 + t.code := by
  have hcode : t.code < 2 ^ 8 := by cases t <;> decide
  rw [packSequenceAndType, Nat.shiftLeft_eq, Nat.mul_comm, Nat.two_pow_add_eq_or_of_lt hcode]

/-- A lookup at `seq'` sees the tags up to its own. -/
theorem packSequenceAndType_le {seq seq' : Nat} {t : Valuetype} :
    packSequenceAndType seq t ≤ packSequenceAndType seq' .value ↔ seq ≤ seq' := by
  rw [packSequenceAndType_eq, packSequenceAndType_eq]
  cases t <;> simp only [Valuetype.code] <;> omega

theorem packSequenceAndType_lt {seq : Nat} (h : seq < 2 ^ 56) (t : Valuetype) :
    packSequenceAndType seq t < 2 ^ 64 := by
  rw [packSequenceAndType_eq]
  cases t <;> simp only [Valuetype.code] <;> omega

namespace InternalKey
variable {u u' : Bytes} {seq seq' : Nat} {t t' : Valuetype}

@[simp] theorem extractUserKey_new : (new u seq t).extractUserKey = u := by
  simp [extractUserKey, new]

theorem getag_new (h : seq < 2 ^ 56) : (new u seq t).getag = packSequenceAndType seq t := by
  have hdrop : (u ++ encodeFixed64 (packSequenceAndType seq t)).drop u.length =
      encodeFixed64 (packSequenceAndType seq t) ++ [] := by
    rw [List.drop_left, List.append_nil]
  rw [getag, new, List.length_append, length_encodeFixed64, Nat.add_sub_cancel, hdrop,
    decodeFixed64_encode (packSequenceAndType_lt h t)]

theorem cmp_new (h : seq < 2 ^ 56) (h' : seq' < 2 ^ 56) :
    cmp (new u seq t) (new u' seq' t') =
      (compare u u').then
        (compare (packSequenceAndType seq' t') (packSequenceAndType seq t)) := by
  rw [cmp, extractUserKey_new, extractUserKey_new, getag_new h, getag_new h']

instance : TransCmp cmp :=
  have := @TransCmp.opposite _ (compareOn getag) _
  inferInstanceAs (TransCmp (compareLex (compareOn extractUserKey) fun a b => compareOn getag b a))

/-- The order tells internal keys apart. -/
theorem eq_of_cmp_eq {a b : InternalKey} (ha : 8 ≤ a.Key.length) (hb : 8 ≤ b.Key.length)
    (h : cmp a b = .eq) : a = b := by
  obtain ⟨huser, htag⟩ := Ordering.then_eq_eq.mp h
  have huser : a.extractUserKey = b.extractUserKey := Std.compare_eq_iff_eq.mp huser
  have htag : b.getag = a.getag := Std.compare_eq_iff_eq.mp htag
  have hbytes (k : InternalKey) (hk : 8 ≤ k.Key.length) :
      encodeFixed64 k.getag = k.Key.drop (k.Key.length - 8) := by
    have hlen : (k.Key.drop (k.Key.length - 8)).length = 8 := by rw [List.length_drop]; omega
    rw [getag, decodeFixed64, List.take_of_length_le hlen.le, encodeFixed64]
    have := ByteCodec.encodeLE_decodeLE (k.Key.drop (k.Key.length - 8))
    rwa [hlen] at this
  have hkey : a.Key = b.Key := by
    rw [← List.take_append_drop (a.Key.length - 8) a.Key, ← hbytes a ha, ← htag, hbytes b hb]
    exact (congrArg (· ++ _) huser).trans (List.take_append_drop (b.Key.length - 8) b.Key)
  cases a
  cases b
  exact congrArg _ hkey

end InternalKey
/-- `cmp(const std::string_view&, const std::string_view&)` of `options.h`: the order of internal keys,
for views of at least eight bytes. -/
def cmp (a b : Bytes) : Ordering :=
  (compare (a.take (a.length - 8)) (b.take (b.length - 8))).then
    (compare (decodeFixed64 (b.drop (b.length - 8))) (decodeFixed64 (a.drop (a.length - 8))))

theorem cmp_eq (a b : Bytes) : cmp a b = InternalKey.cmp ⟨a⟩ ⟨b⟩ := rfl

instance : TransCmp cmp where
  eq_swap {a b} := @OrientedCmp.eq_swap _ InternalKey.cmp _ ⟨a⟩ ⟨b⟩
  isLE_trans {a b c} := @TransCmp.isLE_trans _ InternalKey.cmp _ ⟨a⟩ ⟨b⟩ ⟨c⟩

end Yubindb
