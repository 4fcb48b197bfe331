import Yubindb.Db.MemtableGet
import Yubindb.Db.WriteBatch

/-!
# The order of a batch in the memtable

`DBImpl::Write` reserves as many sequence numbers as the batch has operations, and
`WriteBatch::InsertInto` gives its first one to all of them.
-/

namespace Yubindb

/-! ## Operations and their entries -/

namespace Op

/-- `Delete` has no value. -/
def stored (op : Op) : Op :=
  match op.type with
  | .value => op
  | .deletion => ⟨.deletion, op.key, []⟩

def entryAt (op : Op) (seq : Nat) : Entry := ⟨op.key, seq, op.type, op.stored.value⟩

variable (op : Op)

@[simp] theorem stored_key : op.stored.key = op.key := by
  rw [stored]
  split <;> rfl

@[simp] theorem stored_type : op.stored.type = op.type := by
  rw [stored]
  split
  · rfl
  · next h => exact h.symm

theorem encodeOp_stored : WriteBatch.encodeOp op.stored = WriteBatch.encodeOp op := by
  rw [WriteBatch.encodeOp, WriteBatch.encodeOp, stored_type, stored_key]
  cases h : op.type with
  | value => rw [stored, h]
  | deletion => rfl

variable {op}

theorem encodable_stored (h : (op.entryAt 0).Fits) : op.stored.Encodable := by
  refine ⟨?_, h.2, ?_⟩
  · rw [stored_key]
    exact Nat.lt_of_add_right_lt h.1
  · intro hdel
    rw [stored_type] at hdel
    rw [stored, hdel]

end Op

namespace WriteBatch

/-- What `Put` and `Delete` call for, with the sequence number in front. -/
def numbered (ops : List Op) (s : Nat) : WriteBatch := (ofOps ops).setSequence s

theorem numbered_eq (ops : List Op) (s : Nat) :
    numbered ops s = layout (encodeFixed64 s) (ops.map Op.stored) := by
  rw [numbered, setSequence_ofOps, layout, layout, List.length_map, List.flatMap_map]
  simp only [Op.encodeOp_stored]

/-- Each operation is added with its own number, within the buffer that `Add` allocates, and a lookup
at the last number finds the last operation on its key. -/
structure AppliedInOrder (find : SkiplistFind) (behind : Node → Bytes) (ops : List Op) (s : Nat) :
    Prop where
  inserts : ∀ m : Memtable, ((numbered ops s).insertInto m).2.nodes =
    m.nodes ++ ops.mapIdx fun i op => (op.entryAt (s + i)).storedNode
  inBuffer : ∀ e ∈ (numbered ops s).entries, e.encode.length ≤ e.encodedLength
  last : ∀ m : Memtable, (∀ n ∈ m.nodes, ∃ e : Entry, e.sequence < s ∧ n.key = e.internalKey) →
    ∀ i (hi : i < ops.length), (∀ j (hj : j < ops.length), i < j → ops[j].key ≠ ops[i].key) →
      ((numbered ops s).insertInto m).2.Answers find behind
        (.new ops[i].key ((s : Int) + (numbered ops s).count - 1).toNat)
        (some (ops[i].entryAt (s + i)))

variable {find : SkiplistFind} {behind : Node → Bytes} {ops : List Op} {op : Op} {s : Nat}

/-! ## Batches of at most one operation -/

theorem entries_numbered_one (hs : s < 2 ^ 56) (hop : (op.entryAt s).Fits) :
    (numbered [op] s).entries = [op.entryAt s] := by
  have hencodable : ∀ o ∈ [op].map Op.stored, o.Encodable := by
    simpa using Op.encodable_stored hop
  rw [numbered_eq, entries_layout (by omega) hencodable]
  simp [Op.entryAt]

theorem count_numbered_one : (numbered [op] s).count = 1 := by
  rw [numbered_eq, count_layout (length_encodeFixed64 s)]
  exact Int.bmod_eq_of_le (by simp) (by simp)

theorem nodes_numbered_one (hs : s < 2 ^ 56) (hop : (op.entryAt s).Fits) (m : Memtable) :
    ((numbered [op] s).insertInto m).2.nodes = m.nodes ++ [(op.entryAt s).storedNode] := by
  rw [insertInto_snd, entries_numbered_one hs hop,
    Memtable.nodes_foldl_add (by simpa using hop)]
  rfl

/-- The newest entry of its key is selected. -/
theorem seek_newest (hfind : find.Lawful) {nodes : List Node} {e : Entry} (hs : e.sequence < 2 ^ 56)
    (hold : ∀ n ∈ nodes, ∃ e' : Entry, e'.sequence < e.sequence ∧ n.key = e'.internalKey) :
    Skiplist.seek find (nodes ++ [e.storedNode]) (Lookey.new e.userKey e.sequence).internalKey =
      some e.storedNode := by
  have hnewest := @Skiplist.seek_isNewest find (nodes ++ [e.storedNode]) e.userKey e.sequence
    hfind hs (by
      intro n hn
      rcases List.mem_append.mp hn with hn | hn
      · obtain ⟨e', he', hkey⟩ := hold n hn
        exact ⟨e', he'.trans hs, hkey⟩
      · rw [List.mem_singleton.mp hn]
        exact ⟨e, hs, rfl⟩)
  have hvisible : Visible Node.userKey Node.sequence {n | n ∈ nodes ++ [e.storedNode]} e.userKey
      e.sequence e.storedNode :=
    ⟨by simp, Entry.userKey_eq rfl, (Entry.sequence_eq hs rfl).le⟩
  cases hseek : Skiplist.seek find (nodes ++ [e.storedNode])
      (Lookey.new e.userKey e.sequence).internalKey with
  | none =>
    rw [hseek] at hnewest
    exact absurd hvisible (hnewest _)
  | some t =>
    rw [hseek] at hnewest
    obtain ⟨⟨ht, _, _⟩, hmax⟩ := hnewest
    rcases List.mem_append.mp ht with ht | ht
    · obtain ⟨e', he', hkey⟩ := hold t ht
      have := hmax _ hvisible
      rw [Entry.sequence_eq hs rfl, Entry.sequence_eq (he'.trans hs) hkey] at this
      omega
    · rw [List.mem_singleton.mp ht]

theorem appliedInOrder_nil : AppliedInOrder find behind [] s := by
  have hentries : (numbered [] s).entries = [] := by
    rw [numbered_eq, entries, ops_layout (length_encodeFixed64 s) (by simp)]
    rfl
  refine ⟨?_, ?_, ?_⟩
  · intro m
    rw [insertInto_snd, hentries]
    simp
  · rw [hentries]
    simp
  · intro m _ i hi
    cases hi

theorem appliedInOrder_one (hfind : find.Lawful) (hs : s < 2 ^ 56)
    (hop : (op.entryAt s).Storable) : AppliedInOrder find behind [op] s := by
  refine ⟨?_, ?_, ?_⟩
  · intro m
    rw [nodes_numbered_one hs hop.fits]
    rfl
  · rw [entries_numbered_one hs hop.fits]
    simpa using hop.fits.storable_iff.mp hop
  · intro m hold i hi _
    obtain rfl : i = 0 := by simpa using hi
    have hcount : ((s : Int) + (numbered [op] s).count - 1).toNat = s := by
      rw [count_numbered_one]
      omega
    rw [hcount]
    apply Memtable.answers_of_selects
    · simpa [Op.entryAt] using hs
    · rw [nodes_numbered_one hs hop.fits]
      exact seek_newest (e := op.entryAt s) hfind hs hold

/-! ## The exact condition -/

/-- The entries of a batch have its sequence number, and their strings were read with 32-bit
lengths. -/
theorem of_mem_entries {b : WriteBatch} {e : Entry} (h : e ∈ b.entries) :
    e.sequence = b.sequence ∧ e.userKey.length < 2 ^ 32 ∧ e.value.length < 2 ^ 32 := by
  obtain ⟨op, hop, rfl⟩ := List.mem_map.mp h
  have hencodable := encodable_of_mem_readOps hop
  exact ⟨rfl, hencodable.key, hencodable.value⟩

/-- A node with an internal key of this form comes from an entry of the same sequence number. -/
theorem fits_of_rawNode {e e' : Entry} (hlen : e.userKey.length < 2 ^ 32)
    (hvalue : e.value.length < 2 ^ 32)
    (h : (⟨SkiplistKey.Key e.encode, SkiplistKey.Val e.encode⟩ : Node) = e'.storedNode) :
    e.Fits := by
  refine ⟨?_, hvalue⟩
  have hkey : SkiplistKey.Key e.encode = e'.internalKey := (Node.mk.inj h).1
  by_contra hlong
  have hsize : getsize e.encode = (e.userKey.length + 8) % 2 ^ 32 := by
    rw [Entry.encode, Nat.mod_eq_of_lt hlen]
    simp only [List.append_assoc]
    exact getsize_encodeVarint32 (Nat.mod_lt _ (Nat.two_pow_pos 32)) _
  have hshort : (SkiplistKey.Key e.encode).Key.length ≤ getsize e.encode :=
    List.length_take_le _ _
  rw [hkey, hsize, Entry.internalKey, InternalKey.new, List.length_append,
    length_encodeFixed64] at hshort
  omega

theorem AppliedInOrder.storable (hs : s + ops.length ≤ 2 ^ 56)
    (h : AppliedInOrder find behind ops s) :
    ops.length ≤ 1 ∧ ∀ op ∈ ops, (op.entryAt s).Storable := by
  have hseq : (numbered ops s).sequence = s ∨ ops = [] := by
    by_cases hnil : ops = []
    · exact .inr hnil
    · have := List.length_pos_iff.mpr hnil
      exact .inl (by rw [numbered_eq, sequence_layout (by omega)])
  have hnodes := h.inserts {}
  rw [insertInto_snd, Memtable.rawNodes_foldl_add] at hnodes
  simp only [List.nil_append] at hnodes
  have hraw (i : Nat) (hi : i < ops.length) : ∃ e ∈ (numbered ops s).entries, e.Fits ∧
      e.sequence = s ∧ e.storedNode = (ops[i].entryAt (s + i)).storedNode := by
    have hmem : (ops[i].entryAt (s + i)).storedNode ∈
        ops.mapIdx fun i op => (op.entryAt (s + i)).storedNode :=
      List.mem_mapIdx.mpr ⟨i, hi, rfl⟩
    rw [← hnodes] at hmem
    obtain ⟨e, he, hnode⟩ := List.mem_map.mp hmem
    obtain ⟨hsequence, hkey, hvalue⟩ := of_mem_entries he
    have hfits := fits_of_rawNode hkey hvalue hnode
    refine ⟨e, he, hfits, ?_, ?_⟩
    · rcases hseq with hseq | hnil
      · rw [hsequence, hseq]
      · rw [hnil] at hi
        cases hi
    · rw [← hnode, SkiplistKey.Key_encode hfits, SkiplistKey.Val_encode hfits]
      rfl
  have hone : ops.length ≤ 1 := by
    by_contra hlong
    obtain ⟨e, _, _, hsequence, hnode⟩ := hraw 1 (by omega)
    have hkeys := congrArg Node.sequence hnode
    rw [Entry.sequence_eq (by omega) rfl, Entry.sequence_eq (by simp [Op.entryAt]; omega) rfl,
      hsequence] at hkeys
    simp [Op.entryAt] at hkeys
  refine ⟨hone, ?_⟩
  intro op hop
  obtain ⟨i, hi, rfl⟩ := List.getElem_of_mem hop
  obtain rfl : i = 0 := by omega
  obtain ⟨e, he, hfits, _, hnode⟩ := hraw 0 hi
  obtain ⟨hkey, hvalue⟩ := Node.mk.inj hnode
  have hstorable := hfits.storable_iff.mpr (h.inBuffer e he)
  have hkeylen : e.userKey.length = (ops[0].entryAt s).userKey.length := by
    have := congrArg (fun k => k.Key.length) hkey
    simpa [Entry.internalKey, InternalKey.new, Op.entryAt] using this
  have hvallen : e.value.length = (ops[0].entryAt s).value.length := by
    have := congrArg List.length hvalue
    simpa [Op.entryAt] using this
  rwa [Entry.Storable, Entry.size, hkeylen, hvallen] at hstorable

/-- The batches that are applied in order have at most one operation. -/
theorem appliedInOrder_iff (find : SkiplistFind) (hfind : find.Lawful) (behind : Node → Bytes)
    (ops : List Op) (s : Nat) (hs : s + ops.length ≤ kMaxSequenceNumber + 1) :
    AppliedInOrder find behind ops s ↔
      ops.length ≤ 1 ∧ ∀ op ∈ ops, (op.entryAt s).Storable := by
  have hs : s + ops.length ≤ 2 ^ 56 := hs
  constructor
  · exact AppliedInOrder.storable hs
  · intro ⟨hlen, hops⟩
    match ops, hlen with
    | [], _ => exact appliedInOrder_nil
    | [op], _ =>
      rw [List.length_singleton] at hs
      exact appliedInOrder_one hfind (by omega) (hops op (by simp))

theorem appliedInOrder_put :
    AppliedInOrder firstNotLess (fun _ => []) [⟨.value, [107], [118]⟩] 7 ↔
      [(⟨.value, [107], [118]⟩ : Op)].length ≤ 1 ∧
        ∀ op ∈ [(⟨.value, [107], [118]⟩ : Op)], (op.entryAt 7).Storable :=
  appliedInOrder_iff firstNotLess lawful_firstNotLess (fun _ => []) _ 7 (by decide)

/-- `Put("k", "v")` and `Delete("k")` in one batch get the same number. -/
theorem not_appliedInOrder :
    ¬ AppliedInOrder firstNotLess (fun _ => []) [⟨.value, [107], [118]⟩, ⟨.deletion, [107], []⟩]
      1 := by
  intro h
  have := (h.storable (by simp)).1
  simp at this

end WriteBatch
end Yubindb
