import Mathlib.Data.List.Induction
import Yubindb.Db.Memtable

/-!
# Write batches

`src/db/writebatch.h`, `src/db/writebatch.cpp`: eight bytes of sequence number, four bytes of count,
and the operations.
-/

namespace Yubindb

/-- `Headsize`. -/
def Headsize : Nat := 12

/-- `WriteBatch`, by its `mate`. -/
structure WriteBatch where
  mate : Bytes
  deriving DecidableEq, Repr

/-- One operation of a batch. -/
structure Op where
  type : Valuetype
  key : Bytes
  value : Bytes
  deriving DecidableEq, Repr

namespace WriteBatch

/-- `Clear`, as the constructor runs it. -/
def new : WriteBatch := ⟨List.replicate Headsize 0⟩

/-- `SetContents`. -/
def setContents (contents : Bytes) : WriteBatch := ⟨contents⟩

def contents (b : WriteBatch) : Bytes := b.mate

/-- `ByteSize`: a `uint32_t`. -/
def byteSize (b : WriteBatch) : Nat := b.mate.length % 2 ^ 32

/-- `Count`: an `int`. -/
def count (b : WriteBatch) : Int := (decodeFixed32 (b.mate.drop 8) : Int).bmod (2 ^ 32)

/-- `SetCount`. -/
def setCount (b : WriteBatch) (n : Int) : WriteBatch :=
  ⟨b.mate.take 8 ++ encodeFixed32 (n % 2 ^ 32).toNat ++ b.mate.drop 12⟩

/-- `Sequence`. -/
def sequence (b : WriteBatch) : Nat := decodeFixed64 b.mate

/-- `SetSequence`. -/
def setSequence (b : WriteBatch) (seq : Nat) : WriteBatch := ⟨encodeFixed64 seq ++ b.mate.drop 8⟩

/-- `Put`. -/
def put (b : WriteBatch) (key value : Bytes) : WriteBatch :=
  let b := b.setCount (b.count + 1)
  ⟨b.mate ++ [UInt8.ofNat Valuetype.value.code] ++ putLengthPrefixedview key ++
    putLengthPrefixedview value⟩

/-- `Delete`. -/
def delete (b : WriteBatch) (key : Bytes) : WriteBatch :=
  let b := b.setCount (b.count + 1)
  ⟨b.mate ++ [UInt8.ofNat Valuetype.deletion.code] ++ putLengthPrefixedview key⟩

/-- `Append`: the argument of `std::string::append` is a `const char*`, which ends at the first zero
byte. -/
def append (b source : WriteBatch) : WriteBatch :=
  let b := b.setCount (source.count + b.count)
  ⟨b.mate ++ (source.mate.drop Headsize).takeWhile (· ≠ 0)⟩

/-- One turn of the loop of `InsertInto`, behind the type byte: the operation and the rest. -/
def readOp (type : Nat) (ptr : Bytes) : Option (Op × Bytes) :=
  if type = Valuetype.value.code then do
    let (key, ptr) ← getLengthPrefixedview ptr
    let (value, ptr) ← getLengthPrefixedview ptr
    return (⟨.value, key, value⟩, ptr)
  else if type = Valuetype.deletion.code then do
    let (key, ptr) ← getLengthPrefixedview ptr
    return (⟨.deletion, key, []⟩, ptr)
  else none

theorem length_of_readOp {type : Nat} {ptr rest : Bytes} {op : Op}
    (h : readOp type ptr = some (op, rest)) : rest.length < ptr.length := by
  rw [readOp] at h
  split at h
  · obtain ⟨⟨key, p₁⟩, hkey, h⟩ := Option.bind_eq_some_iff.mp h
    obtain ⟨⟨value, p₂⟩, hvalue, h⟩ := Option.bind_eq_some_iff.mp h
    cases h
    exact (length_of_getLengthPrefixedview hvalue).trans (length_of_getLengthPrefixedview hkey)
  · split at h
    · obtain ⟨⟨key, p₁⟩, hkey, h⟩ := Option.bind_eq_some_iff.mp h
      cases h
      exact length_of_getLengthPrefixedview hkey
    · cases h

/-- The operations that the loop of `InsertInto` meets, and whether it reaches the end. -/
def readOps (ptr : Bytes) : List Op × State :=
  match ptr with
  | [] => ([], .ok)
  | type :: ptr =>
    match _h : readOp type.toNat ptr with
    | none => ([], .corruption)
    | some (op, rest) =>
      let (ops, s) := readOps rest
      (op :: ops, s)
termination_by ptr.length
decreasing_by exact Nat.lt_succ_of_lt (length_of_readOp _h)

/-- Where an operation was read. -/
theorem readOp_of_mem_readOps {ptr : Bytes} {op : Op} (h : op ∈ (readOps ptr).1) :
    ∃ type p rest, p.length ≤ ptr.length ∧ readOp type p = some (op, rest) := by
  induction ptr using readOps.induct with
  | case1 =>
    rw [readOps] at h
    cases h
  | case2 type ptr hnone =>
    rw [readOps] at h
    split at h
    · cases h
    · next hsome => cases hnone.symm.trans hsome
  | case3 type ptr op' rest hsome _ _ _ ih =>
    rw [readOps] at h
    split at h
    · cases h
    · next hsome' =>
      cases hsome.symm.trans hsome'
      rcases List.mem_cons.mp h with rfl | h
      · exact ⟨_, ptr, rest, Nat.le_succ _, hsome⟩
      · obtain ⟨type', p, rest', hlen, hread⟩ := ih h
        exact ⟨type', p, rest', by have := length_of_readOp hsome; simp; omega, hread⟩

/-- The operations of the batch. -/
def ops (b : WriteBatch) : List Op := (readOps (b.mate.drop Headsize)).1

/-- What `InsertInto` adds for an operation; `now_seq` never changes. -/
def entry (b : WriteBatch) (op : Op) : Entry := ⟨op.key, b.sequence, op.type, op.value⟩

/-- The entries that `InsertInto` adds. -/
def entries (b : WriteBatch) : List Entry := b.ops.map b.entry

/-- `InsertInto`. Its `now_cnt` is an `int`, which holds fewer than `2 ^ 31` operations; here the count
of more of them is just no `Count()`. -/
def insertInto (b : WriteBatch) (memtable : Memtable) : State × Memtable :=
  let memtable := b.entries.foldl Memtable.add memtable
  let s := (readOps (b.mate.drop Headsize)).2
  if s ≠ .ok then (s, memtable)
  else if (b.ops.length : Int) ≠ b.count then (.corruption, memtable)
  else (.ok, memtable)

theorem insertInto_snd (b : WriteBatch) (memtable : Memtable) :
    (b.insertInto memtable).2 = b.entries.foldl Memtable.add memtable := by
  rw [insertInto]
  split_ifs <;> rfl

/-- The last sequence number of the batch, as `RecoverLogFile` computes it in a `uint64_t`. -/
def lastSequence (b : WriteBatch) : Nat := (((b.sequence : Int) + b.count - 1) % 2 ^ 64).toNat

/-! ## Batches of operations -/

/-- `Put` or `Delete`. -/
def addOp (b : WriteBatch) (op : Op) : WriteBatch :=
  match op.type with
  | .value => b.put op.key op.value
  | .deletion => b.delete op.key

/-- The batch that the calls fill. -/
def ofOps (ops : List Op) : WriteBatch := ops.foldl addOp new

/-- The bytes that `Put` and `Delete` append. -/
def encodeOp (op : Op) : Bytes :=
  UInt8.ofNat op.type.code :: (putLengthPrefixedview op.key ++
    match op.type with
    | .value => putLengthPrefixedview op.value
    | .deletion => [])

end WriteBatch

/-- The lengths fit a `uint32_t`, and a deletion has no value. -/
structure Op.Encodable (op : Op) : Prop where
  key : op.key.length < 2 ^ 32
  value : op.value.length < 2 ^ 32
  deletion : op.type = .deletion → op.value = []

theorem Op.encodable_put {key value : Bytes} (hkey : key.length < 2 ^ 32)
    (hvalue : value.length < 2 ^ 32) : (⟨.value, key, value⟩ : Op).Encodable :=
  ⟨hkey, hvalue, fun h => by cases h⟩

namespace WriteBatch
variable {b : WriteBatch} {op : Op} {ops : List Op}

theorem readOp_encodeOp (h : op.Encodable) (rest : Bytes) :
    readOps (encodeOp op ++ rest) = (op :: (readOps rest).1, (readOps rest).2) := by
  obtain ⟨type, key, value⟩ := op
  have hkey := getLengthPrefixedview_put h.key
  have hvalue := getLengthPrefixedview_put h.value
  cases type with
  | value =>
    have hread : readOp (UInt8.ofNat Valuetype.value.code).toNat
        (putLengthPrefixedview key ++ putLengthPrefixedview value ++ rest) =
          some (⟨.value, key, value⟩, rest) := by
      rw [List.append_assoc, readOp, if_pos (by decide), hkey]
      dsimp only [Option.bind_eq_bind, Option.bind_some]
      rw [hvalue]
      rfl
    rw [encodeOp, List.cons_append, readOps]
    split
    · next heq => rw [hread] at heq; cases heq
    · next heq => rw [hread] at heq; cases heq; rfl
  | deletion =>
    obtain rfl : value = [] := h.deletion rfl
    have hread : readOp (UInt8.ofNat Valuetype.deletion.code).toNat
        (putLengthPrefixedview key ++ [] ++ rest) = some (⟨.deletion, key, []⟩, rest) := by
      rw [List.append_nil, readOp, if_neg (by decide), if_pos (by decide), hkey]
      rfl
    rw [encodeOp, List.cons_append, readOps]
    split
    · next heq => rw [hread] at heq; cases heq
    · next heq => rw [hread] at heq; cases heq; rfl

theorem readOps_flatMap_append (h : ∀ op ∈ ops, op.Encodable) (rest : Bytes) :
    readOps (ops.flatMap encodeOp ++ rest) = (ops ++ (readOps rest).1, (readOps rest).2) := by
  induction ops with
  | nil => rfl
  | cons op ops ih =>
    obtain ⟨hop, hops⟩ := List.forall_mem_cons.mp h
    rw [List.flatMap_cons, List.append_assoc, readOp_encodeOp hop, ih hops]
    rfl

theorem readOps_encodeOp (h : ∀ op ∈ ops, op.Encodable) :
    readOps (ops.flatMap encodeOp) = (ops, .ok) := by
  have hnil : readOps [] = ([], .ok) := by rw [readOps]
  have happend := readOps_flatMap_append h []
  rwa [List.append_nil, hnil, List.append_nil] at happend

/-- The strings of the records were read with 32-bit lengths. -/
theorem encodable_of_mem_readOps {ptr : Bytes} (h : op ∈ (readOps ptr).1) : op.Encodable := by
  obtain ⟨type, p, rest, -, hread⟩ := readOp_of_mem_readOps h
  rw [readOp] at hread
  split at hread
  · obtain ⟨⟨key, p₁⟩, hkey, hread⟩ := Option.bind_eq_some_iff.mp hread
    obtain ⟨⟨value, p₂⟩, hvalue, hread⟩ := Option.bind_eq_some_iff.mp hread
    cases hread
    exact Op.encodable_put (length_lt_of_getLengthPrefixedview hkey)
      (length_lt_of_getLengthPrefixedview hvalue)
  · split at hread
    · obtain ⟨⟨key, p₁⟩, hkey, hread⟩ := Option.bind_eq_some_iff.mp hread
      cases hread
      exact ⟨length_lt_of_getLengthPrefixedview hkey, Nat.two_pow_pos _, fun _ => rfl⟩
    · cases hread

theorem bmod_natCast_mod (n m : Nat) : ((n % m : Nat) : Int).bmod m = (n : Int).bmod m := by
  rw [Int.natCast_emod, Int.emod_bmod]

theorem bmod_add_emod (n k m : Nat) : ((n : Int).bmod m + k) % m = ((n + k) % m : Nat) := by
  rw [Int.add_emod, Int.bmod_emod, ← Int.add_emod, Int.natCast_emod, Nat.cast_add]

theorem bmod_add_bmod_emod (n k m : Nat) :
    ((n : Int).bmod m + (k : Int).bmod m) % m = ((n + k) % m : Nat) := by
  rw [Int.add_emod, Int.bmod_emod, Int.bmod_emod, ← Int.add_emod, Int.natCast_emod, Nat.cast_add]

/-- A batch with these eight bytes of sequence number, this count and these bytes of operations. -/
def ofParts (seq : Bytes) (n : Nat) (rep : Bytes) : WriteBatch :=
  ⟨seq ++ (encodeFixed32 (n % 2 ^ 32) ++ rep)⟩

section
variable {seq : Bytes} (hseq : seq.length = 8) {n n' : Nat} {seq' rep rep' : Bytes}
include hseq

theorem mate_ofParts_drop : (ofParts seq n rep).mate.drop 8 = encodeFixed32 (n % 2 ^ 32) ++ rep :=
  List.drop_left' hseq

theorem mate_ofParts_drop_Headsize : (ofParts seq n rep).mate.drop Headsize = rep := by
  rw [show Headsize = 8 + 4 from rfl, ← List.drop_drop, mate_ofParts_drop hseq]
  exact List.drop_left' (length_encodeFixed32 _)

theorem count_ofParts : (ofParts seq n rep).count = (n : Int).bmod (2 ^ 32) := by
  have hmod : n % 2 ^ 32 < 2 ^ 32 := Nat.mod_lt _ (by decide)
  have hcount : (ofParts seq n rep).count =
      (decodeFixed32 ((ofParts seq n rep).mate.drop 8) : Int).bmod (2 ^ 32) := rfl
  rw [hcount, mate_ofParts_drop hseq, decodeFixed32_encode hmod]
  exact bmod_natCast_mod _ _

theorem setCount_ofParts (n : Nat) {k : Int} (hk : k % 2 ^ 32 = (n' % 2 ^ 32 : Nat)) :
    (ofParts seq n rep).setCount k = ofParts seq n' rep := by
  have hnat : (k % 2 ^ 32).toNat = n' % 2 ^ 32 := by
    rw [hk]
    exact Int.toNat_natCast _
  rw [setCount, hnat, ← Headsize, mate_ofParts_drop_Headsize hseq, ofParts, List.take_left' hseq,
    ofParts, List.append_assoc]

theorem setSequence_ofParts (s : Nat) :
    (ofParts seq n rep).setSequence s = ofParts (encodeFixed64 s) n rep := by
  rw [setSequence, mate_ofParts_drop hseq, ofParts]

/-- What `Append` takes of the other batch ends in front of its first zero byte. -/
theorem append_ofParts (hseq' : seq'.length = 8) :
    (ofParts seq n rep).append (ofParts seq' n' rep') =
      ofParts seq (n + n') (rep ++ rep'.takeWhile (· ≠ 0)) := by
  have hcount : ((ofParts seq' n' rep').count + (ofParts seq n rep).count) % 2 ^ 32 =
      ((n + n') % 2 ^ 32 : Nat) := by
    rw [count_ofParts hseq', count_ofParts hseq, Nat.add_comm n]
    exact bmod_add_bmod_emod n' n (2 ^ 32)
  rw [append, setCount_ofParts hseq n hcount, mate_ofParts_drop_Headsize hseq', ofParts, ofParts]
  simp only [List.append_assoc]

end

theorem sequence_ofParts {s n : Nat} {rep : Bytes} (h : s < 2 ^ 64) :
    (ofParts (encodeFixed64 s) n rep).sequence = s :=
  decodeFixed64_encode h _

theorem entries_ofParts {s n : Nat} {rep : Bytes} (h : s < 2 ^ 64) :
    (ofParts (encodeFixed64 s) n rep).entries =
      (readOps rep).1.map fun op => ⟨op.key, s, op.type, op.value⟩ := by
  rw [entries, ops, mate_ofParts_drop_Headsize (length_encodeFixed64 s)]
  refine List.map_congr_left fun op _ => ?_
  rw [entry, sequence_ofParts h]

/-- A batch with these eight bytes of sequence number and these operations. -/
def layout (seq : Bytes) (ops : List Op) : WriteBatch :=
  ⟨seq ++ (encodeFixed32 (ops.length % 2 ^ 32) ++ ops.flatMap encodeOp)⟩

theorem layout_eq (seq : Bytes) (ops : List Op) :
    layout seq ops = ofParts seq ops.length (ops.flatMap encodeOp) := rfl

section
variable {seq : Bytes} (hseq : seq.length = 8)
include hseq

theorem mate_layout_drop_Headsize :
    (layout seq ops).mate.drop Headsize = ops.flatMap encodeOp :=
  mate_ofParts_drop_Headsize hseq

theorem count_layout : (layout seq ops).count = (ops.length : Int).bmod (2 ^ 32) :=
  count_ofParts hseq

theorem addOp_layout : (layout seq ops).addOp op = layout seq (ops ++ [op]) := by
  have hcount : ((layout seq ops).count + 1) % 2 ^ 32 = ((ops.length + 1) % 2 ^ 32 : Nat) := by
    rw [count_layout hseq]
    exact bmod_add_emod ops.length 1 (2 ^ 32)
  have hset : (layout seq ops).setCount ((layout seq ops).count + 1) =
      ofParts seq (ops.length + 1) (ops.flatMap encodeOp) :=
    setCount_ofParts hseq ops.length hcount
  have hlayout : layout seq (ops ++ [op]) =
      ⟨((layout seq ops).setCount ((layout seq ops).count + 1)).mate ++ encodeOp op⟩ := by
    rw [hset, layout, ofParts, List.flatMap_append, List.flatMap_singleton, List.length_append,
      List.length_singleton]
    simp only [List.append_assoc]
  rw [hlayout, addOp]
  cases htype : op.type <;> simp [put, delete, encodeOp, htype]

theorem setSequence_layout (n : Nat) :
    (layout seq ops).setSequence n = layout (encodeFixed64 n) ops :=
  setSequence_ofParts hseq n

end

theorem ofOps_eq (ops : List Op) : ofOps ops = layout (List.replicate 8 0) ops := by
  induction ops using List.reverseRecOn with
  | nil => rfl
  | append_singleton ops op ih =>
    rw [ofOps, List.foldl_append, ← ofOps, ih]
    exact addOp_layout List.length_replicate

theorem setSequence_ofOps (n : Nat) (ops : List Op) :
    (ofOps ops).setSequence n = layout (encodeFixed64 n) ops := by
  rw [ofOps_eq, setSequence_layout List.length_replicate]

theorem sequence_layout {n : Nat} (h : n < 2 ^ 64) :
    (layout (encodeFixed64 n) ops).sequence = n :=
  sequence_ofParts h

/-- `InsertInto` meets the operations that were put into the batch. -/
theorem ops_layout {seq : Bytes} (hseq : seq.length = 8) (h : ∀ op ∈ ops, op.Encodable) :
    (layout seq ops).ops = ops := by
  rw [WriteBatch.ops, mate_layout_drop_Headsize hseq, readOps_encodeOp h]

theorem entries_layout {n : Nat} (hn : n < 2 ^ 64) (h : ∀ op ∈ ops, op.Encodable) :
    (layout (encodeFixed64 n) ops).entries =
      ops.map fun op => ⟨op.key, n, op.type, op.value⟩ := by
  rw [layout_eq, entries_ofParts hn, readOps_encodeOp h]

theorem insertInto_layout {seq : Bytes} (hseq : seq.length = 8) (h : ∀ op ∈ ops, op.Encodable)
    (hlen : ops.length < 2 ^ 31) (m : Memtable) :
    (layout seq ops).insertInto m = (.ok, (layout seq ops).entries.foldl Memtable.add m) := by
  have hcount : (ops.length : Int).bmod (2 ^ 32) = ops.length :=
    Int.bmod_eq_of_le (by omega) (by omega)
  rw [insertInto, ops_layout hseq h, mate_layout_drop_Headsize hseq, readOps_encodeOp h,
    count_layout hseq, hcount, if_neg (not_not.mpr rfl), if_neg (not_not.mpr rfl)]

end WriteBatch
end Yubindb
