import Mathlib.Order.Defs.Unbundled
import Yubindb.Db.VersionGet

/-!
# The order of internal keys

The two comparisons of `src/util/key.h` and `src/util/options.h` on what the constructor of
`InternalKey` makes, and `ParseInternalKey`, which takes it apart again.
-/

namespace Yubindb
open Std

/-- The parts of an internal key, with a sequence number that its tag has room for. -/
structure KeyParts extends ParsedInternalKey where
  sequence_lt : sequence < 2 ^ 56

namespace KeyParts

/-- The internal key of these parts. -/
def encode (k : KeyParts) : InternalKey := .new k.userKey k.sequence k.type

/-- User keys ascending by their bytes, then sequence numbers descending, then types descending. -/
def order (a b : KeyParts) : Ordering :=
  (compare a.userKey b.userKey).then
    ((compare b.sequence a.sequence).then (compare b.type.code a.type.code))

end KeyParts

/-- The internal keys that the constructor makes. -/
abbrev EncodedKey := Set.range KeyParts.encode

/-! ## Tags -/

theorem Valuetype.code_le (t : Valuetype) : t.code ≤ 1 := by cases t <;> decide

theorem compare_packSequenceAndType (seq seq' : ℕ) (t t' : Valuetype) :
    compare (packSequenceAndType seq t) (packSequenceAndType seq' t') =
      (compare seq seq').then (compare t.code t'.code) := by
  have ht := t.code_le
  have ht' := t'.code_le
  rw [packSequenceAndType_eq, packSequenceAndType_eq]
  rcases Nat.lt_trichotomy seq seq' with hlt | rfl | hgt
  · rw [Nat.compare_eq_lt.mpr hlt]
    exact Nat.compare_eq_lt.mpr (by omega)
  · rw [Std.compare_self, Ordering.then, Nat.compare_eq_ite_lt, Nat.compare_eq_ite_lt]
    simp only [Nat.add_lt_add_iff_left]
  · rw [Nat.compare_eq_gt.mpr hgt]
    exact Nat.compare_eq_gt.mpr (by omega)

theorem packSequenceAndType_and (seq : ℕ) (t : Valuetype) :
    packSequenceAndType seq t &&& 0xff = t.code := by
  have ht := t.code_le
  rw [packSequenceAndType_eq, show 0xff = 2 ^ 8 - 1 from rfl, Nat.and_two_pow_sub_one_eq_mod]
  omega

theorem packSequenceAndType_shiftRight (seq : ℕ) (t : Valuetype) :
    packSequenceAndType seq t >>> 8 = seq := by
  have ht := t.code_le
  rw [packSequenceAndType_eq, Nat.shiftRight_eq_div_pow]
  omega

/-! ## Encoded keys -/

theorem InternalKey.eight_le_new (u : Bytes) (seq : ℕ) (t : Valuetype) :
    8 ≤ (InternalKey.new u seq t).Key.length := by
  rw [InternalKey.new, List.length_append, length_encodeFixed64]
  exact Nat.le_add_left 8 _

theorem parseInternalKey_new {u : Bytes} {seq : ℕ} (h : seq < 2 ^ 56) (t : Valuetype) :
    parseInternalKey (InternalKey.new u seq t).Key = some ⟨u, seq, t⟩ := by
  have hlen := InternalKey.eight_le_new u seq t
  have hnum : decodeFixed64 ((InternalKey.new u seq t).Key.drop
      ((InternalKey.new u seq t).Key.length - 8)) = packSequenceAndType seq t :=
    InternalKey.getag_new h
  have huser : (InternalKey.new u seq t).Key.take ((InternalKey.new u seq t).Key.length - 8) = u :=
    InternalKey.extractUserKey_new
  rw [parseInternalKey]
  dsimp only
  rw [if_neg (Nat.not_lt.mpr hlen), hnum, huser, packSequenceAndType_and,
    packSequenceAndType_shiftRight]
  cases t <;> rfl

namespace KeyParts

/-- Both comparisons are the order of the parts. -/
theorem cmp_encode (a b : KeyParts) : InternalKey.cmp a.encode b.encode = order a b := by
  rw [encode, encode, InternalKey.cmp_new a.sequence_lt b.sequence_lt, compare_packSequenceAndType,
    order]

theorem viewCmp_encode (a b : KeyParts) :
    viewCmp a.encode.Key b.encode.Key = some (order a b) := by
  have ha : 8 ≤ a.encode.Key.length := InternalKey.eight_le_new _ _ _
  have hb : 8 ≤ b.encode.Key.length := InternalKey.eight_le_new _ _ _
  exact viewCmp_eq_some.mpr ⟨⟨ha, hb⟩, cmp_encode a b⟩

theorem isStrictTotalOrder_encode :
    IsStrictTotalOrder EncodedKey fun a b => InternalKey.cmp a.1 b.1 = .lt where
  irrefl a h := by
    rw [@ReflCmp.compare_self _ InternalKey.cmp] at h
    cases h
  trans a b c hab hbc := TransCmp.lt_trans hab hbc
  trichotomous := by
    rintro ⟨_, a, rfl⟩ ⟨_, b, rfl⟩ hab hba
    apply Subtype.ext
    apply InternalKey.eq_of_cmp_eq (InternalKey.eight_le_new _ _ _) (InternalKey.eight_le_new _ _ _)
    change InternalKey.cmp a.encode b.encode = .eq
    cases hcmp : InternalKey.cmp a.encode b.encode with
    | lt => exact absurd hcmp hab
    | eq => rfl
    | gt => exact absurd (OrientedCmp.gt_iff_lt.mp hcmp) hba

end KeyParts

/-- The order of internal keys is one strict total order, that of their parts, and the parts are
found again. -/
theorem internalKeys_ordered :
    (∀ a b : KeyParts, viewCmp a.encode.Key b.encode.Key = some (a.order b) ∧
      InternalKey.cmp a.encode b.encode = a.order b) ∧
    IsStrictTotalOrder EncodedKey (fun a b => InternalKey.cmp a.1 b.1 = .lt) ∧
    IsStrictTotalOrder EncodedKey (fun a b => viewCmp a.1.Key b.1.Key = some .lt) ∧
    ∀ a : KeyParts, parseInternalKey a.encode.Key = some a.toParsedInternalKey := by
  have hview : (fun a b : EncodedKey => viewCmp a.1.Key b.1.Key = some .lt) =
      fun a b => InternalKey.cmp a.1 b.1 = .lt := by
    funext ⟨_, a, ha⟩ ⟨_, b, hb⟩
    subst ha hb
    rw [KeyParts.viewCmp_encode, KeyParts.cmp_encode, Option.some.injEq]
  rw [hview]
  refine ⟨fun a b => ⟨a.viewCmp_encode b, a.cmp_encode b⟩, KeyParts.isStrictTotalOrder_encode,
    KeyParts.isStrictTotalOrder_encode, fun a => ?_⟩
  exact parseInternalKey_new a.sequence_lt a.type

end Yubindb
