import Yubindb.Db.WriteBatch
import Mathlib.Data.List.TakeWhile

/-!
# The bytes of a batch

What `WriteBatch::InsertInto` accepts, and what `Put`, `Delete` and `Append` build.
-/

namespace Yubindb

/-- A call of `Put` or `Delete`. -/
inductive BatchCall
  | put (key value : Bytes)
  | delete (key : Bytes)
  deriving DecidableEq, Repr

namespace BatchCall

def op : BatchCall → Op
  | put key value => ⟨.value, key, value⟩
  | delete key => ⟨.deletion, key, []⟩

/-- The lengths fit a `uint32_t`. -/
def Fits : BatchCall → Prop
  | put key value => key.length < 2 ^ 32 ∧ value.length < 2 ^ 32
  | delete key => key.length < 2 ^ 32

/-- A `Put` of strings that are not empty and have no zero byte. -/
def ZeroFree : BatchCall → Prop
  | put key value => key ≠ [] ∧ 0 ∉ key ∧ value ≠ [] ∧ 0 ∉ value
  | delete _ => False

theorem encodable_iff {c : BatchCall} : c.op.Encodable ↔ c.Fits := by
  cases c with
  | put key value => exact ⟨fun h => ⟨h.key, h.value⟩, fun h => Op.encodable_put h.1 h.2⟩
  | delete key => exact ⟨fun h => h.key, fun h => ⟨h, Nat.two_pow_pos _, fun _ => rfl⟩⟩

/-- The zero bytes of a record: the type of a deletion, and those of the strings and their
lengths. -/
theorem zero_notMem_encodeOp {c : BatchCall} (h : c.Fits) :
    0 ∉ WriteBatch.encodeOp c.op ↔ c.ZeroFree := by
  cases c with
  | put key value =>
    have htype : (0 : UInt8) ≠ UInt8.ofNat Valuetype.value.code := by decide
    rw [op, WriteBatch.encodeOp, ZeroFree]
    simp only [List.mem_cons, List.mem_append, htype, false_or,
      zero_mem_putLengthPrefixedview h.1, zero_mem_putLengthPrefixedview h.2, not_or, and_assoc]
  | delete key =>
    refine iff_of_false (fun hnot => hnot ?_) id
    exact List.mem_cons_self

end BatchCall

namespace WriteBatch
variable {b : WriteBatch} {op : Op} {ops : List Op} {calls calls' : List BatchCall}

/-- The batch behind a call. -/
def call (b : WriteBatch) : BatchCall → WriteBatch
  | .put key value => b.put key value
  | .delete key => b.delete key

/-- The batch that the calls build. -/
def ofCalls (calls : List BatchCall) : WriteBatch := calls.foldl call new

theorem ofCalls_eq (calls : List BatchCall) :
    ofCalls calls = layout (List.replicate 8 0) (calls.map BatchCall.op) := by
  rw [← ofOps_eq, ofOps, List.foldl_map, ofCalls]
  refine congrArg (fun f => calls.foldl f new) ?_
  funext b c
  cases c <;> rfl

/-! ## The grammar -/

/-- A record: a byte 1 in front of a key and a value, or a byte 0 in front of a key. -/
inductive IsRecord : Bytes → Op → Prop
  | value {k v key value : Bytes} (hkey : IsLengthPrefixed k key)
    (hvalue : IsLengthPrefixed v value) : IsRecord (1 :: (k ++ v)) ⟨.value, key, value⟩
  | deletion {k key : Bytes} (hkey : IsLengthPrefixed k key) : IsRecord (0 :: k) ⟨.deletion, key, []⟩

/-- A concatenation of records. -/
def IsRecords (bytes : Bytes) (ops : List Op) : Prop :=
  ∃ records, bytes = records.flatten ∧ List.Forall₂ IsRecord records ops

/-- The bytes behind the header are exactly `Count()` records. -/
def Holds (b : WriteBatch) (ops : List Op) : Prop :=
  IsRecords (b.mate.drop Headsize) ops ∧ (ops.length : Int) = b.count

theorem readOp_eq_some_iff {type : UInt8} {ptr rest : Bytes} :
    readOp type.toNat ptr = some (op, rest) ↔
      ∃ bytes, ptr = bytes ++ rest ∧ IsRecord (type :: bytes) op := by
  have hcode (t : UInt8) : type.toNat = t.toNat ↔ type = t := UInt8.toNat_inj
  constructor
  · intro h
    rw [readOp] at h
    split at h
    · next htype =>
      obtain ⟨⟨key, p₁⟩, hkey, h⟩ := Option.bind_eq_some_iff.mp h
      obtain ⟨⟨value, p₂⟩, hvalue, h⟩ := Option.bind_eq_some_iff.mp h
      cases h
      obtain ⟨k, rfl, hk⟩ := getLengthPrefixedview_eq_some_iff.mp hkey
      obtain ⟨v, rfl, hv⟩ := getLengthPrefixedview_eq_some_iff.mp hvalue
      obtain rfl := (hcode 1).mp htype
      exact ⟨k ++ v, (List.append_assoc ..).symm, .value hk hv⟩
    · split at h
      · next htype =>
        obtain ⟨⟨key, p₁⟩, hkey, h⟩ := Option.bind_eq_some_iff.mp h
        cases h
        obtain ⟨k, rfl, hk⟩ := getLengthPrefixedview_eq_some_iff.mp hkey
        obtain rfl := (hcode 0).mp htype
        exact ⟨k, rfl, .deletion hk⟩
      · cases h
  · rintro ⟨bytes, rfl, hrecord⟩
    cases hrecord with
    | @value k v key value hkey hvalue =>
      have hreadKey := getLengthPrefixedview_eq_some_iff.mpr
        ⟨k, List.append_assoc k v rest, hkey⟩
      have hreadValue := getLengthPrefixedview_eq_some_iff.mpr ⟨v, (rfl : v ++ rest = _), hvalue⟩
      rw [readOp, if_pos (by decide), hreadKey]
      simp only [Option.bind_eq_bind, Option.bind_some, hreadValue]
      rfl
    | @deletion _ key hkey =>
      have hreadKey := getLengthPrefixedview_eq_some_iff.mpr ⟨bytes, (rfl : bytes ++ rest = _), hkey⟩
      rw [readOp, if_neg (by decide), if_pos (by decide), hreadKey]
      rfl

/-- A record in front is read first. -/
theorem readOps_record {bytes : Bytes} (h : IsRecord bytes op) (rest : Bytes) :
    readOps (bytes ++ rest) = (op :: (readOps rest).1, (readOps rest).2) := by
  obtain ⟨type, tail, rfl⟩ : ∃ type tail, bytes = type :: tail := by
    cases h <;> exact ⟨_, _, rfl⟩
  have hread : readOp type.toNat (tail ++ rest) = some (op, rest) :=
    readOp_eq_some_iff.mpr ⟨tail, rfl, h⟩
  rw [List.cons_append, readOps]
  split
  · next heq => cases heq.symm.trans hread
  · next heq =>
    cases heq.symm.trans hread
    rfl

theorem IsRecords.readOps_append {bytes : Bytes} (h : IsRecords bytes ops) (rest : Bytes) :
    readOps (bytes ++ rest) = (ops ++ (readOps rest).1, (readOps rest).2) := by
  obtain ⟨records, rfl, hrecords⟩ := h
  induction hrecords with
  | nil => rfl
  | cons hrecord _ ih => rw [List.flatten_cons, List.append_assoc, readOps_record hrecord, ih]; rfl

/-- The loop of `InsertInto` reaches the end of exactly the concatenations of records. -/
theorem readOps_eq_ok_iff {ptr : Bytes} : readOps ptr = (ops, .ok) ↔ IsRecords ptr ops := by
  constructor
  · intro h
    induction ptr using readOps.induct generalizing ops with
    | case1 =>
      rw [readOps] at h
      cases h
      exact ⟨[], rfl, .nil⟩
    | case2 type ptr hnone =>
      rw [readOps] at h
      split at h
      · cases h
      · next hsome => cases hnone.symm.trans hsome
    | case3 type ptr op rest hsome _ _ _ ih =>
      rw [readOps] at h
      split at h
      · cases h
      · next hsome' =>
        cases hsome.symm.trans hsome'
        obtain ⟨rfl, hs⟩ := Prod.mk.inj h
        obtain ⟨bytes, rfl, hrecord⟩ := readOp_eq_some_iff.mp hsome
        have htail : readOps rest = ((readOps rest).1, .ok) := Prod.ext rfl hs
        obtain ⟨records, hrest, hrecords⟩ := ih htail
        exact ⟨(type :: bytes) :: records, by rw [List.flatten_cons, ← hrest]; rfl,
          .cons hrecord hrecords⟩
  · intro h
    have hnil : readOps [] = ([], .ok) := by rw [readOps]
    have hread := h.readOps_append []
    rwa [List.append_nil, hnil, List.append_nil] at hread

/-- `InsertInto` accepts a batch that is as many records as it counts, and adds exactly these. -/
theorem insertInto_of_holds (h : b.Holds ops) (memtable : Memtable) :
    b.insertInto memtable = (.ok, (ops.map b.entry).foldl Memtable.add memtable) := by
  obtain ⟨hrecords, hcount⟩ := h
  have hread := readOps_eq_ok_iff.mpr hrecords
  have hops : b.ops = ops := congrArg Prod.fst hread
  rw [insertInto, entries, hops, hread, ← hcount, if_neg (not_not.mpr rfl), if_neg (not_not.mpr rfl)]

theorem holds_of_insertInto {memtable : Memtable} (h : (b.insertInto memtable).1 = .ok) :
    b.Holds b.ops := by
  rw [insertInto] at h
  split at h
  · next hs => exact absurd h hs
  · next hs =>
    split at h
    · cases h
    · next hcount =>
      exact ⟨readOps_eq_ok_iff.mp (Prod.ext rfl (not_not.mp hs)), not_not.mp hcount⟩

theorem isRecords_calls (h : ∀ c ∈ calls, c.Fits) :
    IsRecords ((calls.map BatchCall.op).flatMap encodeOp) (calls.map BatchCall.op) := by
  refine readOps_eq_ok_iff.mp (readOps_encodeOp fun op hop => ?_)
  obtain ⟨c, hc, rfl⟩ := List.mem_map.mp hop
  exact BatchCall.encodable_iff.mpr (h c hc)

theorem holds_ofCalls (h : ∀ c ∈ calls, c.Fits) (hlen : calls.length < 2 ^ 31) :
    (ofCalls calls).Holds (calls.map BatchCall.op) := by
  rw [ofCalls_eq]
  refine ⟨?_, ?_⟩
  · rw [mate_layout_drop_Headsize List.length_replicate]
    exact isRecords_calls h
  · rw [count_layout List.length_replicate, List.length_map]
    exact (Int.bmod_eq_of_le (by omega) (by omega)).symm

/-- The turns of the loop of `InsertInto`: one for each operation, and one for bytes that are none. -/
def turns (b : WriteBatch) : Nat :=
  b.ops.length + if (readOps (b.mate.drop Headsize)).2 = .ok then 0 else 1

/-- `Append` concatenates: the count is the sum, the sequence stays, `InsertInto` accepts the batch,
and its operations are those of both. -/
structure Concatenates (calls calls' : List BatchCall) : Prop where
  count : ((ofCalls calls).append (ofCalls calls')).count =
    (ofCalls calls).count + (ofCalls calls').count
  sequence : ((ofCalls calls).append (ofCalls calls')).sequence = (ofCalls calls).sequence
  accepted : ∀ memtable,
    (((ofCalls calls).append (ofCalls calls')).insertInto memtable).1 = .ok
  ops : ((ofCalls calls).append (ofCalls calls')).ops = (calls ++ calls').map BatchCall.op

theorem append_ofCalls (calls calls' : List BatchCall) :
    (ofCalls calls).append (ofCalls calls') =
      ofParts (List.replicate 8 0) (calls.length + calls'.length)
        ((calls.map BatchCall.op).flatMap encodeOp ++
          ((calls'.map BatchCall.op).flatMap encodeOp).takeWhile (· ≠ 0)) := by
  rw [ofCalls_eq, ofCalls_eq, layout_eq, layout_eq,
    append_ofParts List.length_replicate List.length_replicate, List.length_map, List.length_map]

theorem count_ofCalls (calls : List BatchCall) :
    (ofCalls calls).count = (calls.length : Int).bmod (2 ^ 32) := by
  rw [ofCalls_eq, count_layout List.length_replicate, List.length_map]

theorem sequence_append (calls calls' : List BatchCall) :
    ((ofCalls calls).append (ofCalls calls')).sequence = (ofCalls calls).sequence := by
  rw [append_ofCalls, ofCalls_eq, layout_eq]
  rfl

/-- Records that end early are not all of them. -/
theorem eq_nil_of_readOps {front rest : Bytes} (hfront : readOps front = (ops, .ok))
    (hall : readOps (front ++ rest) = (ops, .ok)) : rest = [] := by
  rw [(readOps_eq_ok_iff.mp hfront).readOps_append rest] at hall
  obtain ⟨hops, hs⟩ := Prod.mk.inj hall
  have hnil : (readOps rest).1 = [] := List.append_right_eq_self.mp hops
  have hrest : IsRecords rest [] := readOps_eq_ok_iff.mp (Prod.ext hnil hs)
  obtain ⟨records, rfl, hrecords⟩ := hrest
  cases hrecords
  rfl

theorem zeroFree_iff (h : ∀ c ∈ calls, c.Fits) :
    0 ∉ (calls.map BatchCall.op).flatMap encodeOp ↔ ∀ c ∈ calls, c.ZeroFree := by
  rw [List.flatMap_map, List.mem_flatMap]
  constructor
  · intro hno c hc
    exact (BatchCall.zero_notMem_encodeOp (h c hc)).mp fun hzero => hno ⟨c, hc, hzero⟩
  · rintro hfree ⟨c, hc, hzero⟩
    exact (BatchCall.zero_notMem_encodeOp (h c hc)).mpr (hfree c hc) hzero

/-- Without zero bytes `Append` copies all. -/
theorem append_eq_ofCalls (h : 0 ∉ (calls'.map BatchCall.op).flatMap encodeOp) :
    (ofCalls calls).append (ofCalls calls') = ofCalls (calls ++ calls') := by
  have hall : ((calls'.map BatchCall.op).flatMap encodeOp).takeWhile (· ≠ 0) =
      (calls'.map BatchCall.op).flatMap encodeOp :=
    List.takeWhile_eq_self_iff.mpr fun b hb => decide_eq_true fun hzero => h (hzero ▸ hb)
  rw [append_ofCalls, hall, ofCalls_eq, layout_eq, List.map_append, List.flatMap_append,
    List.length_append, List.length_map, List.length_map]

theorem Concatenates.conditions (h : Concatenates calls calls') :
    (calls ++ calls').length < 2 ^ 31 ∧ (∀ c ∈ calls ++ calls', c.Fits) ∧
      ∀ c ∈ calls', c.ZeroFree := by
  obtain ⟨hrecords, hcount⟩ := holds_of_insertInto (h.accepted {})
  rw [h.ops] at hrecords hcount
  rw [append_ofCalls, mate_ofParts_drop_Headsize List.length_replicate] at hrecords
  rw [append_ofCalls, count_ofParts List.length_replicate, List.length_map, ← List.length_append]
    at hcount
  have hread := readOps_eq_ok_iff.mpr hrecords
  have hencodable : ∀ op ∈ (calls ++ calls').map BatchCall.op, op.Encodable := fun op hop =>
    encodable_of_mem_readOps (by rwa [hread])
  have hfits : ∀ c ∈ calls ++ calls', c.Fits := fun c hc =>
    BatchCall.encodable_iff.mp (hencodable c.op (List.mem_map_of_mem hc))
  refine ⟨?_, hfits, ?_⟩
  · have hlt := Int.bmod_lt (x := (calls ++ calls').length) (m := 2 ^ 32) (by decide)
    rw [← hcount] at hlt
    omega
  rw [List.map_append, List.forall_mem_append] at hencodable
  obtain ⟨hfront, hback⟩ := hencodable
  set bytes := (calls'.map BatchCall.op).flatMap encodeOp with hbytes
  have hcopied : readOps (bytes.takeWhile (· ≠ 0)) = (calls'.map BatchCall.op, .ok) := by
    rw [readOps_flatMap_append hfront, List.map_append] at hread
    obtain ⟨hops, hs⟩ := Prod.mk.inj hread
    exact Prod.ext (List.append_cancel_left hops) hs
  have hwhole : readOps (bytes.takeWhile (· ≠ 0) ++ bytes.dropWhile (· ≠ 0)) =
      (calls'.map BatchCall.op, .ok) := by
    rw [List.takeWhile_append_dropWhile]
    exact readOps_encodeOp hback
  have hnil := eq_nil_of_readOps hcopied hwhole
  refine (zeroFree_iff fun c hc => hfits c (List.mem_append_right _ hc)).mp fun hzero => ?_
  exact of_decide_eq_true (List.dropWhile_eq_nil_iff.mp hnil 0 hzero) rfl

/-- `Append` concatenates for exactly the batches whose strings fit, with fewer than `2 ^ 31` calls
together, where nothing of the second batch has a zero byte. -/
theorem concatenates_iff (calls calls' : List BatchCall) :
    Concatenates calls calls' ↔ (calls ++ calls').length < 2 ^ 31 ∧
      (∀ c ∈ calls ++ calls', c.Fits) ∧ ∀ c ∈ calls', c.ZeroFree := by
  refine ⟨Concatenates.conditions, ?_⟩
  rintro ⟨hlen, hfits, hfree⟩
  have hzero := (zeroFree_iff fun c hc => hfits c (List.mem_append_right _ hc)).mpr hfree
  have happend : (ofCalls calls).append (ofCalls calls') = ofCalls (calls ++ calls') :=
    append_eq_ofCalls hzero
  have hholds := holds_ofCalls hfits hlen
  have hread := readOps_eq_ok_iff.mpr hholds.1
  refine ⟨?_, sequence_append calls calls', fun memtable => ?_, ?_⟩
  · rw [List.length_append] at hlen
    rw [happend, count_ofCalls, count_ofCalls, count_ofCalls, List.length_append,
      Int.bmod_eq_of_le (by omega) (by omega), Int.bmod_eq_of_le (by omega) (by omega),
      Int.bmod_eq_of_le (by omega) (by omega)]
    exact Int.natCast_add ..
  · rw [happend, insertInto_of_holds hholds]
  · rw [happend, ops, hread]

/-- The record of a `Delete` begins with a zero byte. -/
theorem not_concatenates_delete : ¬ Concatenates [] [.delete [107]] := by
  intro h
  exact (h.conditions.2.2 _ List.mem_cons_self)

end WriteBatch
end Yubindb
