import Yubindb.Db.Memtable
import Yubindb.Theory.Versioned

/-!
# Memtable lookups

`Skiplist::Seek` of `src/util/skiplistpg.cpp` and `Memtable::Get` of `src/db/memtable.cpp`. The
skiplist library is not part of the repository: `skiplist_find_greater_or_equal` is a parameter.
-/

namespace Yubindb
open Std

/-! ## The skiplist -/

/-- `skiplist_find_greater_or_equal`, on the nodes that were inserted. -/
abbrev SkiplistFind := List Node → InternalKey → Option Node

/-- The library returns the first node, in the order of `my_cmp`, that is not less than the probe. -/
def SkiplistFind.Lawful (find : SkiplistFind) : Prop :=
  ∀ nodes key, match find nodes key with
    | none => ∀ n ∈ nodes, InternalKey.cmp n.key key = .lt
    | some t => t ∈ nodes ∧ InternalKey.cmp t.key key ≠ .lt ∧
        ∀ n ∈ nodes, InternalKey.cmp n.key key ≠ .lt → (InternalKey.cmp t.key n.key).isLE

/-- A search from the front. -/
def firstNotLess : SkiplistFind := fun nodes key =>
  (nodes.mergeSort fun a b => (InternalKey.cmp a.key b.key).isLE).find? fun n =>
    InternalKey.cmp n.key key ≠ .lt

theorem lawful_firstNotLess : firstNotLess.Lawful := by
  intro nodes key
  split
  · next hnone =>
    intro n hn
    have := List.find?_eq_none.mp hnone n (List.mem_mergeSort.mpr hn)
    simpa using this
  · next t hsome =>
    obtain ⟨ht, front, rest, hsplit, hfront⟩ := List.find?_eq_some_iff_append.mp hsome
    have htotal (a b : Node) :
        ((InternalKey.cmp a.key b.key).isLE || (InternalKey.cmp b.key a.key).isLE) = true := by
      rw [@OrientedCmp.eq_swap _ InternalKey.cmp _ b.key a.key]
      cases InternalKey.cmp a.key b.key <;> rfl
    have hsorted := @List.pairwise_mergeSort _ (fun a b : Node => (InternalKey.cmp a.key b.key).isLE)
      (fun _ _ _ => TransCmp.isLE_trans) htotal nodes
    rw [hsplit] at hsorted
    have hmem (n : Node) : n ∈ nodes ↔ n ∈ front ∨ n = t ∨ n ∈ rest := by
      rw [← List.mem_mergeSort, hsplit, List.mem_append, List.mem_cons]
    refine ⟨(hmem t).mpr (.inr (.inl rfl)), by simpa using ht, ?_⟩
    intro n hn hle
    rcases (hmem n).mp hn with h | rfl | h
    · exact absurd (hfront n h) (by simpa using hle)
    · exact ReflCmp.isLE_rfl
    · exact (List.pairwise_cons.mp (List.pairwise_append.mp hsorted).2.1).1 n h

/-- `Skiplist::Seek`. -/
def Skiplist.seek (find : SkiplistFind) (nodes : List Node) (key : InternalKey) : Option Node :=
  match find nodes key with
  | none => none
  | some t => if key.extractUserKey = t.key.extractUserKey then some t else none

/-! ## Lookups -/

/-- `memcpy`, by the bytes that its source and its destination have. -/
structure Memcpy where
  source : Nat
  destination : Nat
  n : Nat

def Memcpy.InBounds (c : Memcpy) : Prop := c.n ≤ c.source ∧ c.n ≤ c.destination

/-- The copy in `SkiplistKey::Val`. -/
def SkiplistKey.valMemcpy (str : Bytes) : Memcpy :=
  let keySize := getsize str
  let valSize := getsize (str.drop (keySize + varintLength keySize))
  { source := str.length - (varintLength keySize + keySize)
    destination := valSize
    n := valSize + varintLength valSize }

namespace Node

/-- `Getag() & 0xf`. -/
def typeBits (found : Node) : Nat := found.key.getag &&& 0xf

/-- The size that `Memtable::Get` reads; `behind` is what memory holds behind the string. -/
def valSize (found : Node) (behind : Bytes) : Nat := getsize (found.val ++ behind)

/-- The bytes that `Memtable::Get` copies. -/
def copiedVal (found : Node) (behind : Bytes) : Bytes :=
  ((found.val ++ behind).drop (varintLength (found.valSize behind))).take (found.valSize behind)

/-- The copy in `Memtable::Get`. -/
def getMemcpy (found : Node) (behind : Bytes) : Memcpy where
  source := found.val.length - varintLength (found.valSize behind)
  destination := found.valSize behind
  n := found.valSize behind

end Node

/-- `Memtable::Get`: what it returns, `*value` and `*s`. -/
def Memtable.get (find : SkiplistFind) (behind : Node → Bytes) (m : Memtable) (key : Lookey)
    (value : Bytes) (s : State) : Bool × Bytes × State :=
  match Skiplist.seek find m.nodes key.internalKey with
  | some found =>
    if found.typeBits = Valuetype.value.code then (true, found.copiedVal (behind found), s)
    else if found.typeBits = Valuetype.deletion.code then (true, value, .notFound)
    else (true, value, s)
  | none => (false, value, s)

/-! ## What a lookup selects -/

/-- `Getag() >> 8`. -/
def InternalKey.sequence (k : InternalKey) : Nat := k.getag >>> 8

def Node.userKey (n : Node) : Bytes := n.key.extractUserKey

def Node.sequence (n : Node) : Nat := n.key.sequence

/-- The nodes of entries with sequence numbers below `2 ^ 56`. -/
def Node.OfEntry (n : Node) : Prop := ∃ e : Entry, e.sequence < 2 ^ 56 ∧ n.key = e.internalKey

namespace InternalKey
variable {u : Bytes} {seq : Nat} {t : Valuetype}

theorem sequence_new (h : seq < 2 ^ 56) : (new u seq t).sequence = seq := by
  rw [sequence, getag_new h, packSequenceAndType_eq, Nat.shiftRight_eq_div_pow]
  cases t <;> simp only [Valuetype.code] <;> omega

theorem typeBits_new (h : seq < 2 ^ 56) (val : Bytes) :
    (⟨new u seq t, val⟩ : Node).typeBits = t.code := by
  rw [Node.typeBits, getag_new h, packSequenceAndType_eq, show 0xf = 2 ^ 4 - 1 from rfl,
    Nat.and_two_pow_sub_one_eq_mod]
  cases t <;> simp only [Valuetype.code] <;> omega

/-- What is not less than the lookup key has a larger user key, or is a version that it sees. -/
theorem cmp_lookup {k : Bytes} {s : Nat} (h : seq < 2 ^ 56) (hs : s < 2 ^ 56) :
    cmp (new u seq t) (new k s .value) ≠ .lt ↔ compare u k = .gt ∨ u = k ∧ seq ≤ s := by
  have htag : compare (packSequenceAndType s .value) (packSequenceAndType seq t) ≠ .lt ↔ seq ≤ s := by
    rw [Ne, Nat.compare_eq_lt, Nat.not_lt, packSequenceAndType_le]
  rw [cmp_new h hs, Ne, Ordering.then_eq_lt, not_or, not_and_or, htag.symm]
  cases huser : compare u k with
  | lt =>
    have hne : u ≠ k := fun h => by
      rw [Std.compare_eq_iff_eq.mpr h] at huser
      cases huser
    simp [hne]
  | eq => simp [Std.compare_eq_iff_eq.mp huser]
  | gt => simp

/-- Versions of one user key are in the order of their sequence numbers, the newest first. -/
theorem sequence_le_of_cmp {seq' : Nat} {t' : Valuetype} (h : seq < 2 ^ 56) (h' : seq' < 2 ^ 56)
    (hle : (cmp (new u seq t) (new u seq' t')).isLE) : seq' ≤ seq := by
  rw [cmp_new h h', Ordering.isLE_then_iff_and, Std.compare_eq_iff_eq.mpr (rfl : u = u)] at hle
  have := Nat.isLE_compare.mp (hle.2.resolve_left (by simp))
  rw [packSequenceAndType_eq, packSequenceAndType_eq] at this
  cases t <;> cases t' <;> simp only [Valuetype.code] at this <;> omega

theorem user_le_of_cmp {u' : Bytes} {seq' : Nat} {t' : Valuetype} (h : seq < 2 ^ 56)
    (h' : seq' < 2 ^ 56) (hle : (cmp (new u seq t) (new u' seq' t')).isLE) :
    compare u u' ≠ .gt := by
  rw [cmp_new h h', Ordering.isLE_then_iff_and] at hle
  exact Ordering.ne_gt_iff_isLE.mpr hle.1

end InternalKey

theorem Entry.userKey_eq {e : Entry} {n : Node} (h : n.key = e.internalKey) :
    n.userKey = e.userKey := by
  rw [Node.userKey, h, internalKey, InternalKey.extractUserKey_new]

theorem Entry.sequence_eq {e : Entry} {n : Node} (he : e.sequence < 2 ^ 56)
    (h : n.key = e.internalKey) : n.sequence = e.sequence := by
  rw [Node.sequence, h, internalKey, InternalKey.sequence_new he]

section
variable {find : SkiplistFind} {nodes : List Node} {k : Bytes} {s : Nat}

/-- `Skiplist::Seek` selects the newest version that the lookup sees. -/
theorem Skiplist.seek_isNewest (hfind : find.Lawful) (hs : s < 2 ^ 56)
    (hnodes : ∀ n ∈ nodes, n.OfEntry) :
    IsNewest Node.userKey Node.sequence {n | n ∈ nodes} k s
      (seek find nodes (Lookey.new k s).internalKey) := by
  have hlaw := hfind nodes (Lookey.new k s).internalKey
  rw [seek]
  rw [Lookey.internalKey_new] at hlaw ⊢
  cases hres : find nodes (.new k s .value) with
  | none =>
    rw [hres] at hlaw
    intro n ⟨hn, hkey, hle⟩
    obtain ⟨e, he, hnode⟩ := hnodes n hn
    rw [Entry.userKey_eq hnode] at hkey
    rw [Entry.sequence_eq he hnode] at hle
    have hless := hlaw n hn
    rw [hnode] at hless
    exact (InternalKey.cmp_lookup he hs).mpr (.inr ⟨hkey, hle⟩) hless
  | some t =>
    rw [hres] at hlaw
    obtain ⟨ht, hge, hfirst⟩ := hlaw
    obtain ⟨e, he, hnode⟩ := hnodes t ht
    rw [hnode] at hge
    have huser := (InternalKey.cmp_lookup he hs).mp hge
    have hvisible (n : Node) (h : Visible Node.userKey Node.sequence {n | n ∈ nodes} k s n) :
        e.userKey = k ∧ n.sequence ≤ e.sequence := by
      obtain ⟨hn, hkey, hle⟩ := h
      obtain ⟨e', he', hnode'⟩ := hnodes n hn
      rw [Entry.userKey_eq hnode'] at hkey
      rw [Entry.sequence_eq he' hnode'] at hle ⊢
      have hge' : InternalKey.cmp n.key (.new k s .value) ≠ .lt := by
        rw [hnode']
        exact (InternalKey.cmp_lookup he' hs).mpr (.inr ⟨hkey, hle⟩)
      have hcmp := hfirst n hn hge'
      rw [hnode, hnode'] at hcmp
      have hkeys : e.userKey = k := by
        rcases huser with h | h
        · exact absurd (hkey ▸ h) (InternalKey.user_le_of_cmp he he' hcmp)
        · exact h.1
      rw [Entry.internalKey, Entry.internalKey, hkey, hkeys] at hcmp
      exact ⟨hkeys, InternalKey.sequence_le_of_cmp he he' hcmp⟩
    have htkey : t.key.extractUserKey = e.userKey := Entry.userKey_eq hnode
    have htseq := Entry.sequence_eq he hnode
    dsimp only
    rw [InternalKey.extractUserKey_new, htkey]
    split
    · next hk =>
      have hseq : e.sequence ≤ s := by
        rcases huser with h | h
        · rw [Std.compare_eq_iff_eq.mpr hk.symm] at h
          cases h
        · exact h.2
      refine ⟨⟨ht, htkey.trans hk.symm, ?_⟩, ?_⟩
      · rwa [htseq]
      · intro n h
        rw [htseq]
        exact (hvisible n h).2
    · next hk =>
      intro n h
      exact hk (hvisible n h).1.symm

theorem Entry.typeBits_eq {e : Entry} {n : Node} (he : e.sequence < 2 ^ 56)
    (h : n.key = e.internalKey) : n.typeBits = e.type.code := by
  have : n = ⟨e.internalKey, n.val⟩ := by rw [← h]
  rw [this]
  exact InternalKey.typeBits_new he _

end

/-! ## Lookups behind any calls of `Add` -/

namespace Entry

/-- The bytes of the entry in the arena. -/
def size (e : Entry) : Nat :=
  varintLength (e.userKey.length + 8) + (e.userKey.length + 8) + varintLength e.value.length +
    e.value.length

/-- `key_size`, `internal_size` and `encond_len` are `uint32_t`. -/
def Storable (e : Entry) : Prop := e.size < 2 ^ 32

instance (e : Entry) : Decidable e.Storable := inferInstanceAs (Decidable (_ < _))

theorem Storable.fits {e : Entry} (h : e.Storable) : e.Fits := by
  rw [Storable, size] at h
  exact ⟨by omega, by omega⟩

theorem Fits.length_encode {e : Entry} (h : e.Fits) : e.encode.length = e.size := by
  have hlen : e.internalKey.Key.length = e.userKey.length + 8 := by
    simp [internalKey, InternalKey.new]
  rw [encode_of_fits h, hlen, size]
  simp only [List.length_append, hlen, length_encodeVarint32 h.1, length_encodeVarint32 h.2]
  omega

/-- `Add` stays within the buffer that it allocates. -/
theorem Fits.storable_iff {e : Entry} (h : e.Fits) :
    e.Storable ↔ e.encode.length ≤ e.encodedLength := by
  have hmod : e.encodedLength = e.size % 2 ^ 32 := by
    rw [encodedLength, size, Nat.mod_eq_of_lt h.2, Nat.mod_eq_of_lt (Nat.lt_of_add_right_lt h.1),
      Nat.mod_eq_of_lt h.1]
  have := Nat.mod_lt e.size (Nat.two_pow_pos 32)
  rw [h.length_encode, hmod, Storable]
  constructor
  · intro hlt
    rw [Nat.mod_eq_of_lt hlt]
  · intro hle
    omega

end Entry

/-- What `Memtable::Get` should answer when `r` is the entry that it should select. -/
structure Memtable.Answers (find : SkiplistFind) (behind : Node → Bytes) (m : Memtable)
    (key : Lookey) (r : Option Entry) : Prop where
  selects : Skiplist.seek find m.nodes key.internalKey = r.map Entry.storedNode
  found : ∀ value s, (m.get find behind key value s).1 = r.isSome
  status : ∀ value s, (m.get find behind key value s).2.2 =
    if r.any (·.type = .deletion) then .notFound else s

theorem Memtable.answers_of_selects {find : SkiplistFind} {behind : Node → Bytes} {m : Memtable}
    {key : Lookey} {r : Option Entry} (hr : ∀ e ∈ r, e.sequence < 2 ^ 56)
    (h : Skiplist.seek find m.nodes key.internalKey = r.map Entry.storedNode) :
    m.Answers find behind key r := by
  have hget (value : Bytes) (s : State) : (m.get find behind key value s).1 = r.isSome ∧
      (m.get find behind key value s).2.2 =
        if r.any (·.type = .deletion) then .notFound else s := by
    rw [get, h]
    cases r with
    | none => exact ⟨rfl, rfl⟩
    | some e =>
      have htype : e.storedNode.typeBits = e.type.code := Entry.typeBits_eq (hr e rfl) rfl
      simp only [Option.map_some, htype]
      cases htype : e.type <;> simp [Valuetype.code, htype]
  exact ⟨h, fun value s => (hget value s).1, fun value s => (hget value s).2⟩

/-- `Memtable::Get` answers with the newest version that the lookup sees. -/
theorem Memtable.get_isNewest (find : SkiplistFind) (hfind : find.Lawful) (behind : Node → Bytes)
    (es : List Entry) (hes : ∀ e ∈ es, e.Storable ∧ e.sequence < 2 ^ 56) (k : Bytes) (s : Nat)
    (hs : s < 2 ^ 56) :
    ∃ r, IsNewest Entry.userKey Entry.sequence {e | e ∈ es} k s r ∧
      (ofEntries es).Answers find behind (.new k s) r := by
  have hnodes := nodes_ofEntries fun e he => (hes e he).1.fits
  have hnewest := @Skiplist.seek_isNewest find (ofEntries es).nodes k s hfind hs (by
    intro n hn
    rw [hnodes] at hn
    obtain ⟨e, he, rfl⟩ := List.mem_map.mp hn
    exact ⟨e, (hes e he).2, rfl⟩)
  have hvisible (e : Entry) (h : Visible Entry.userKey Entry.sequence {e | e ∈ es} k s e) :
      Visible Node.userKey Node.sequence {n | n ∈ (ofEntries es).nodes} k s e.storedNode := by
    obtain ⟨he, hkey, hle⟩ := h
    refine ⟨?_, (Entry.userKey_eq rfl).trans hkey, ?_⟩
    · rw [hnodes]
      exact List.mem_map_of_mem he
    · rwa [Entry.sequence_eq (hes e he).2 rfl]
  cases hseek : Skiplist.seek find (ofEntries es).nodes (Lookey.new k s).internalKey with
  | none =>
    rw [hseek] at hnewest
    refine ⟨none, fun e he => hnewest _ (hvisible e he), answers_of_selects ?_ hseek⟩
    intro e he
    cases he
  | some t =>
    rw [hseek] at hnewest
    obtain ⟨⟨ht, hkey, hle⟩, hmax⟩ := hnewest
    obtain ⟨e, he, rfl⟩ := List.mem_map.mp (hnodes ▸ ht : t ∈ es.map Entry.storedNode)
    rw [Entry.userKey_eq rfl] at hkey
    rw [Entry.sequence_eq (hes e he).2 rfl] at hle
    refine ⟨some e, ⟨⟨he, hkey, hle⟩, ?_⟩, answers_of_selects ?_ hseek⟩
    · intro e' he'
      have := hmax _ (hvisible e' he')
      rwa [Entry.sequence_eq (hes e' he'.1).2 rfl, Entry.sequence_eq (hes e he).2 rfl] at this
    · intro e' he'
      cases he'
      exact (hes e he).2

theorem Memtable.get_isNewest_versions :
    ∃ r, IsNewest Entry.userKey Entry.sequence
        {e | e ∈ [⟨[1], 3, .deletion, []⟩, ⟨[1], 1, .value, [7]⟩, ⟨[1, 0], 2, .value, []⟩]} [1] 2 r ∧
      (ofEntries [⟨[1], 3, .deletion, []⟩, ⟨[1], 1, .value, [7]⟩,
        ⟨[1, 0], 2, .value, []⟩]).Answers firstNotLess (fun _ => []) (.new [1] 2) r := by
  apply Memtable.get_isNewest firstNotLess lawful_firstNotLess (fun _ => [])
  · simp [Entry.Storable, Entry.size, varintLength_of_lt]
  · decide

theorem Skiplist.mem_of_seek {find : SkiplistFind} (hfind : find.Lawful) {nodes : List Node}
    {key : InternalKey} {t : Node} (h : seek find nodes key = some t) : t ∈ nodes := by
  have hlaw := hfind nodes key
  rw [seek] at h
  split at h
  · cases h
  · next hres =>
    rw [hres] at hlaw
    split at h
    · cases h
      exact hlaw.1
    · cases h

/-- A key of `2 ^ 32` bytes is stored as the empty one. -/
theorem Memtable.not_get_isNewest :
    ¬ ∀ find : SkiplistFind, find.Lawful → ∀ (behind : Node → Bytes) (es : List Entry),
      (∀ e ∈ es, e.sequence < 2 ^ 56) →
      es.Pairwise (fun a b => (a.userKey, a.sequence) ≠ (b.userKey, b.sequence)) →
      ∀ (k : Bytes) (s : Nat), s < 2 ^ 56 →
        ∃ r, IsNewest Entry.userKey Entry.sequence {e | e ∈ es} k s r ∧
          (ofEntries es).Answers find behind (.new k s) r := by
  intro h
  obtain ⟨e, he⟩ : ∃ e : Entry, e = ⟨List.replicate (2 ^ 32) 0, 1, .value, []⟩ := ⟨_, rfl⟩
  have hseq : e.sequence = 1 := by rw [he]
  obtain ⟨r, hr, hanswers⟩ := h firstNotLess lawful_firstNotLess (fun _ => []) [e]
    (by simp [hseq]) (List.pairwise_singleton _ _) e.userKey 1 (by decide)
  cases r with
  | none => exact hr e ⟨List.mem_singleton.mpr rfl, rfl, hseq.le⟩
  | some e' =>
    obtain rfl := List.mem_singleton.mp hr.1.1
    have hmem := Skiplist.mem_of_seek lawful_firstNotLess hanswers.selects
    have hfits := Entry.fits_of_storedNode (List.mem_singleton.mp hmem).symm
    have hlen : e'.userKey.length = 2 ^ 32 := by rw [he, List.length_replicate]
    have := hfits.1
    rw [hlen] at this
    omega

/-! ## The values of a node -/

/-- Both readers give the value back, and every copy stays within its strings. -/
structure Memtable.Survives (find : SkiplistFind) (m : Memtable) (e : Entry) : Prop where
  get : ∀ behind value s,
    (m.add e).get find behind (.new e.userKey e.sequence) value s = (true, e.value, s)
  flush : (e.internalKey, e.value) ∈ (m.add e).flushlevel0fromskip
  valMemcpy : (SkiplistKey.valMemcpy e.encode).InBounds
  getMemcpy : ∀ behind,
    ((⟨SkiplistKey.Key e.encode, SkiplistKey.Val e.encode⟩ : Node).getMemcpy behind).InBounds

/-- The copy takes the bytes of the length along, and the string has no room for them. -/
theorem SkiplistKey.not_inBounds_valMemcpy (str : Bytes) : ¬ (valMemcpy str).InBounds := by
  intro h
  have hdst := h.2
  simp only [valMemcpy] at hdst
  have := varintLength_pos (getsize (str.drop (getsize str + varintLength (getsize str))))
  omega

/-- The value given to the table builder is cut by as many bytes as its length takes in front. -/
theorem Memtable.flush_iff {m : Memtable} {e : Entry} (he : e.Fits)
    (hnew : ∀ n ∈ m.nodes, n.key ≠ e.internalKey) :
    (e.internalKey, e.value) ∈ (m.add e).flushlevel0fromskip ↔ storedVal e.value = e.value := by
  rw [mem_flushlevel0fromskip, nodes_add m he, List.mem_append, List.mem_singleton]
  constructor
  · intro h
    rcases h with h | h
    · exact absurd rfl (hnew _ h)
    · exact (Node.mk.inj h).2.symm
  · intro h
    rw [h]
    exact .inr rfl

/-- The copy in `SkiplistKey::Val` leaves the string for every entry. -/
theorem Memtable.not_survives (find : SkiplistFind) (m : Memtable) (e : Entry) :
    ¬ m.Survives find e :=
  fun h => SkiplistKey.not_inBounds_valMemcpy e.encode h.valMemcpy

/-- The flush of `Put("k", "v")` gives the byte 1 to the table builder. -/
theorem Memtable.not_survives_put :
    ¬ Memtable.Survives firstNotLess {} ⟨[107], 1, .value, [118]⟩ := by
  intro h
  have hfits : (⟨[107], 1, .value, [118]⟩ : Entry).Fits := ⟨by decide, by decide⟩
  have hmem := (flush_iff hfits fun n hn => absurd hn List.not_mem_nil).mp h.flush
  revert hmem
  decide

end Yubindb
