import Yubindb.Util.Arena
import Yubindb.Util.Key

/-!
# The memtable

`src/db/memtable.h`, `src/db/memtable.cpp`, `src/util/skiplistpg.h`, `src/util/skiplistpg.cpp`: what
`Memtable::Add` puts into the skiplist and what a flush hands to the table builder.
-/

namespace Yubindb

/-! ## Skiplist entries -/

/-- `getsize`: the number that `GetVarint32Ptr` finds in five bytes. -/
def getsize (ptr : Bytes) : Nat := ((getVarint32Ptr (ptr.take 5)).map Prod.fst).getD 0

namespace SkiplistKey

/-- `SkiplistKey::Key`. -/
def Key (str : Bytes) : InternalKey :=
  let keySize := getsize str
  ⟨(str.drop (varintLength keySize)).take keySize⟩

/-- `SkiplistKey::Val`: the string is resized to the size of the value, and the bytes copied into it
start with the varint of that size. -/
def Val (str : Bytes) : Bytes :=
  let keySize := getsize str
  let valSize := getsize (str.drop (keySize + varintLength keySize))
  ((str.drop (varintLength keySize + keySize)).take (valSize + varintLength valSize)).take valSize

end SkiplistKey

/-- `node`. -/
structure Node where
  key : InternalKey
  val : Bytes
  deriving DecidableEq, Repr

/-- What one operation adds to a memtable. -/
structure Entry where
  userKey : Bytes
  sequence : Nat
  type : Valuetype
  value : Bytes
  deriving DecidableEq, Repr

namespace Entry

def internalKey (e : Entry) : InternalKey := .new e.userKey e.sequence e.type

/-- The entry as it should be stored. -/
def node (e : Entry) : Node := ⟨e.internalKey, e.value⟩

/-- The lengths fit a `uint32_t`, with the tag behind the key. -/
def Fits (e : Entry) : Prop := e.userKey.length + 8 < 2 ^ 32 ∧ e.value.length < 2 ^ 32

/-- The buffer that `Memtable::Add` fills. -/
def encode (e : Entry) : Bytes :=
  let keySize := e.userKey.length % 2 ^ 32
  let valSize := e.value.length % 2 ^ 32
  encodeVarint32 ((keySize + 8) % 2 ^ 32) ++ e.userKey.take keySize ++
    encodeFixed64 ((e.sequence <<< 8) ||| e.type.code) ++ encodeVarint32 valSize ++
    e.value.take valSize

/-- `encond_len`. -/
def encodedLength (e : Entry) : Nat :=
  let internalSize := (e.userKey.length % 2 ^ 32 + 8) % 2 ^ 32
  let valSize := e.value.length % 2 ^ 32
  (varintLength internalSize + internalSize + varintLength valSize + valSize) % 2 ^ 32

end Entry

/-! ## The memtable -/

/-- `Memtable`; the nodes of the skiplist in the order in which they were inserted. -/
structure Memtable where
  arena : Arena := {}
  nodes : List Node := []
  deriving DecidableEq, Repr

namespace Memtable

/-- `ApproximateMemoryUsage`. -/
def approximateMemoryUsage (m : Memtable) : Nat := m.arena.memoryUsage % 2 ^ 32

/-- `Add`. -/
def add (m : Memtable) (e : Entry) : Memtable :=
  { arena := (m.arena.allocateAligned e.encodedLength).2
    nodes := m.nodes ++ [⟨SkiplistKey.Key e.encode, SkiplistKey.Val e.encode⟩] }

/-- The order of the skiplist: `my_cmp`. -/
def ordered (m : Memtable) : List Node :=
  m.nodes.mergeSort fun a b => (InternalKey.cmp a.key b.key).isLE

/-- `Flushlevel0fromskip`: the pairs given to `Tablebuilder::Add`. -/
def flushlevel0fromskip (m : Memtable) : List (InternalKey × Bytes) :=
  m.ordered.map fun p => (p.key, p.val)

end Memtable

/-! ## What the skiplist stores -/

/-- The value of a node whose entry has this value. -/
def storedVal (value : Bytes) : Bytes := (putVarint32 value.length ++ value).take value.length

theorem length_encodeVarint32_le {v : Nat} : (encodeVarint32 v).length ≤ 5 := by
  rw [encodeVarint32]
  split_ifs <;> simp

theorem length_encodeVarint32 {v : Nat} (h : v < 2 ^ 32) :
    (encodeVarint32 v).length = varintLength v := by
  rw [encodeVarint32_eq h, varintLength_eq]

theorem getsize_encodeVarint32 {v : Nat} (h : v < 2 ^ 32) (rest : Bytes) :
    getsize (encodeVarint32 v ++ rest) = v := by
  have htake : (encodeVarint32 v ++ rest).take 5 =
      putVarint32 v ++ rest.take (5 - (encodeVarint32 v).length) := by
    rw [List.take_append, List.take_of_length_le length_encodeVarint32_le, putVarint32,
      Nat.mod_eq_of_lt h]
  rw [getsize, htake, show getVarint32Ptr = getVarint32 from rfl, getVarint32_put h]
  rfl

theorem getsize_lt (ptr : Bytes) : getsize ptr < 2 ^ 32 := by
  rw [getsize, show getVarint32Ptr = getVarint32 from rfl]
  cases h : getVarint32 (ptr.take 5) with
  | none => exact Nat.two_pow_pos _
  | some p => exact lt_of_getVarint32 h

variable {e : Entry}

theorem Entry.encode_of_fits (h : e.Fits) :
    e.encode = encodeVarint32 e.internalKey.Key.length ++ (e.internalKey.Key ++
      (encodeVarint32 e.value.length ++ e.value)) := by
  obtain ⟨hkey, hvalue⟩ := h
  have hlen : e.internalKey.Key.length = e.userKey.length + 8 := by
    simp [internalKey, InternalKey.new]
  rw [hlen, encode, Nat.mod_eq_of_lt hvalue, Nat.mod_eq_of_lt (Nat.lt_of_add_right_lt hkey),
    Nat.mod_eq_of_lt hkey, List.take_length, List.take_length, internalKey, InternalKey.new,
    packSequenceAndType]
  simp only [List.append_assoc]

theorem SkiplistKey.Key_encode (h : e.Fits) : SkiplistKey.Key e.encode = e.internalKey := by
  have hlen : e.internalKey.Key.length < 2 ^ 32 := by
    simpa [Entry.internalKey, InternalKey.new] using h.1
  rw [SkiplistKey.Key, Entry.encode_of_fits h, getsize_encodeVarint32 hlen,
    ← length_encodeVarint32 hlen, List.drop_left, List.take_left]

/-- The stored value starts with the bytes of its own length. -/
theorem SkiplistKey.Val_encode (h : e.Fits) : SkiplistKey.Val e.encode = storedVal e.value := by
  have hlen : e.internalKey.Key.length < 2 ^ 32 := by
    simpa [Entry.internalKey, InternalKey.new] using h.1
  have hvalue := h.2
  rw [SkiplistKey.Val, Entry.encode_of_fits h, getsize_encodeVarint32 hlen,
    ← length_encodeVarint32 hlen, Nat.add_comm e.internalKey.Key.length, ← List.drop_drop,
    List.drop_left, List.drop_left, getsize_encodeVarint32 hvalue, ← length_encodeVarint32 hvalue, storedVal, putVarint32,
    Nat.mod_eq_of_lt hvalue, List.take_take, Nat.min_eq_left (Nat.le_add_right _ _)]

/-- The node of an entry. -/
theorem Memtable.nodes_add (m : Memtable) (h : e.Fits) :
    (m.add e).nodes = m.nodes ++ [⟨e.internalKey, storedVal e.value⟩] := by
  rw [add, SkiplistKey.Key_encode h, SkiplistKey.Val_encode h]

@[simp] theorem length_storedVal (value : Bytes) : (storedVal value).length = value.length := by
  rw [storedVal, List.length_take, List.length_append]
  omega

/-- The strings of a node are shorter than `2 ^ 32` bytes. -/
theorem Entry.fits_of_storedNode {str : Bytes}
    (h : (⟨SkiplistKey.Key str, SkiplistKey.Val str⟩ : Node) = ⟨e.internalKey, storedVal e.value⟩) :
    e.Fits := by
  obtain ⟨hkey, hval⟩ := Node.mk.inj h
  constructor
  · have hlen : e.internalKey.Key.length = e.userKey.length + 8 := by
      simp [internalKey, InternalKey.new]
    rw [← hlen, ← hkey, SkiplistKey.Key]
    exact (List.length_take_le _ _).trans_lt (getsize_lt _)
  · rw [← length_storedVal, ← hval, SkiplistKey.Val]
    exact (List.length_take_le _ _).trans_lt (getsize_lt _)

theorem Memtable.mem_flushlevel0fromskip {m : Memtable} {k : InternalKey} {v : Bytes} :
    (k, v) ∈ m.flushlevel0fromskip ↔ ⟨k, v⟩ ∈ m.nodes := by
  rw [flushlevel0fromskip, ordered, List.mem_map]
  simp only [List.mem_mergeSort, Prod.mk.injEq]
  exact ⟨fun ⟨p, hp, hk, hv⟩ => by cases p; cases hk; cases hv; exact hp, fun h => ⟨_, h, rfl, rfl⟩⟩

/-! ## Values that the skiplist keeps -/

/-- The bytes in front of the stored value come from fewer bytes of the value. -/
theorem take_storedVal {v w : Bytes} (hlen : v.length = w.length) {m : Nat}
    (h : v.take m = w.take m) : (storedVal v).take (m + 1) = (storedVal w).take (m + 1) := by
  have hpos := List.length_pos_iff.mpr (putVarint32_ne_nil w.length)
  have htake : v.take (m + 1 - (putVarint32 w.length).length) =
      w.take (m + 1 - (putVarint32 w.length).length) := by
    have := congrArg (List.take (m + 1 - (putVarint32 w.length).length)) h
    rwa [List.take_take, List.take_take, Nat.min_eq_left (by omega)] at this
  have happend : (putVarint32 w.length ++ v).take (m + 1) =
      (putVarint32 w.length ++ w).take (m + 1) := by
    rw [List.take_append, List.take_append, htake]
  rw [storedVal, storedVal, hlen, List.take_take, List.take_take, Nat.min_comm, ← List.take_take,
    ← List.take_take, happend]

/-- A set of values whose stored values include the set is stored unchanged. -/
theorem storedVal_eq_of_forall {S : Bytes → Prop}
    (h : ∀ v, S v → ∃ w, S w ∧ storedVal w = v) {v : Bytes} (hv : S v) : storedVal v = v := by
  have hprefix (m : Nat) : ∀ v, S v → (storedVal v).take m = v.take m := by
    induction m with
    | zero => exact fun _ _ => by simp
    | succ m ih =>
      intro v hv
      obtain ⟨w, hw, rfl⟩ := h v hv
      exact take_storedVal (length_storedVal w) (ih w hw)
  have := hprefix v.length v hv
  rwa [List.take_length, List.take_of_length_le (Nat.le_of_eq (length_storedVal v))] at this

/-! ## The memtable of a list of entries -/

/-- What the skiplist keeps of an entry. -/
def Entry.storedNode (e : Entry) : Node := ⟨e.internalKey, storedVal e.value⟩

namespace Memtable

def ofEntries (es : List Entry) : Memtable := es.foldl add {}

/-- `insertInto` adds one node for each entry, whatever its lengths. -/
theorem rawNodes_foldl_add (es : List Entry) (m : Memtable) :
    (es.foldl add m).nodes =
      m.nodes ++ es.map fun e => ⟨SkiplistKey.Key e.encode, SkiplistKey.Val e.encode⟩ := by
  induction es generalizing m with
  | nil => simp
  | cons e es ih => simp [ih, add]

theorem nodes_foldl_add {es : List Entry} (h : ∀ e ∈ es, e.Fits) (m : Memtable) :
    (es.foldl add m).nodes = m.nodes ++ es.map Entry.storedNode := by
  rw [rawNodes_foldl_add]
  congr 1
  refine List.map_congr_left fun e he => ?_
  rw [SkiplistKey.Key_encode (h e he), SkiplistKey.Val_encode (h e he)]
  rfl

theorem nodes_ofEntries {es : List Entry} (h : ∀ e ∈ es, e.Fits) :
    (ofEntries es).nodes = es.map Entry.storedNode :=
  nodes_foldl_add h {}

theorem mem_flushlevel0fromskip_ofEntries {es : List Entry} (h : ∀ e ∈ es, e.Fits)
    {k : InternalKey} {v : Bytes} :
    (k, v) ∈ (ofEntries es).flushlevel0fromskip ↔ ∃ e ∈ es, e.storedNode = ⟨k, v⟩ := by
  rw [mem_flushlevel0fromskip, nodes_ofEntries h, List.mem_map]

end Memtable

end Yubindb
