import Yubindb.Util.Bloom

/-!
# The filter block of a table

`src/db/filterblock.h`, `src/db/filterblock.cpp`: one Bloom filter for every 2048 bytes of block
offsets. In the abstract the builder groups the keys that it is given; the block holds the filter of
each group, and a test asks the filter of the group to which an offset belongs.
-/

namespace Yubindb
open ByteCodec

/-- `kFilterBaseLg`. -/
def kFilterBaseLg : ℕ := 11

/-- `kFilterBase`. -/
def kFilterBase : ℕ := 1 <<< kFilterBaseLg

/-! ## The builder -/

/-- `FilterBlockbuilder`. -/
structure FilterBlockbuilder where
  keys : Bytes := []
  start : List ℕ := []
  result : Bytes := []
  filterOffsets : List ℕ := []
  deriving DecidableEq, Repr

namespace FilterBlockbuilder

/-- The views in `tmp_keys_`. -/
def tmpKeys : Bytes → List ℕ → List Bytes
  | _, [] => []
  | p, n :: ns => p.take n :: tmpKeys (p.drop n) ns

variable (f : BloomFilter) (hash : Bytes → UInt32)

/-- `AddKey`. -/
def addKey (b : FilterBlockbuilder) (key : Bytes) : FilterBlockbuilder :=
  { b with keys := b.keys ++ key, start := b.start ++ [key.length] }

/-- `CreateNewfilter`. -/
def createNewfilter (b : FilterBlockbuilder) : FilterBlockbuilder :=
  let filterOffsets := b.filterOffsets ++ [b.result.length % 2 ^ 32]
  if b.start.length = 0 then { b with filterOffsets }
  else
    { keys := []
      start := []
      result := b.result ++ f.createFilter hash (tmpKeys b.keys b.start)
      filterOffsets }

theorem length_createNewfilter (b : FilterBlockbuilder) :
    (b.createNewfilter f hash).filterOffsets.length = b.filterOffsets.length + 1 := by
  rw [createNewfilter]
  split <;> simp

/-- The loop of `StartBlock`. -/
def createUpTo (filterIndex : ℕ) (b : FilterBlockbuilder) : FilterBlockbuilder :=
  if filterIndex > b.filterOffsets.length then createUpTo filterIndex (b.createNewfilter f hash)
  else b
termination_by filterIndex - b.filterOffsets.length
decreasing_by rw [length_createNewfilter]; omega

theorem createUpTo_of_gt {filterIndex : ℕ} {b : FilterBlockbuilder}
    (h : filterIndex > b.filterOffsets.length) : b.createUpTo f hash filterIndex =
      (b.createNewfilter f hash).createUpTo f hash filterIndex := by
  rw [createUpTo, if_pos h]

theorem createUpTo_of_not_gt {filterIndex : ℕ} {b : FilterBlockbuilder}
    (h : ¬ filterIndex > b.filterOffsets.length) : b.createUpTo f hash filterIndex = b := by
  rw [createUpTo, if_neg h]

/-- `StartBlock`. -/
def startBlock (b : FilterBlockbuilder) (blockOffset : ℕ) : FilterBlockbuilder :=
  b.createUpTo f hash (blockOffset / kFilterBase)

/-- `Finish`. -/
def finish (b : FilterBlockbuilder) : Bytes :=
  let b := if b.start = [] then b else b.createNewfilter f hash
  b.result ++ b.filterOffsets.flatMap encodeFixed32 ++ encodeFixed32 (b.result.length % 2 ^ 32) ++
    [UInt8.ofNat kFilterBaseLg]

end FilterBlockbuilder

/-! ## The hash does not matter to the lengths -/

/-- The same but for the bits of the filters. -/
structure FilterBlockbuilder.Like (b b' : FilterBlockbuilder) : Prop where
  keys : b.keys = b'.keys
  start : b.start = b'.start
  result : b.result.length = b'.result.length
  filterOffsets : b.filterOffsets = b'.filterOffsets

namespace FilterBlockbuilder.Like
variable {f : BloomFilter} {hash hash' : Bytes → UInt32} {b b' : FilterBlockbuilder}

theorem refl (b : FilterBlockbuilder) : Like b b := ⟨rfl, rfl, rfl, rfl⟩

theorem addKey (h : Like b b') (key : Bytes) : Like (b.addKey key) (b'.addKey key) where
  keys := congrArg (· ++ key) h.keys
  start := congrArg (· ++ [key.length]) h.start
  result := h.result
  filterOffsets := h.filterOffsets

theorem createNewfilter (h : Like b b') :
    Like (b.createNewfilter f hash) (b'.createNewfilter f hash') := by
  have hoffsets : b.filterOffsets ++ [b.result.length % 2 ^ 32] =
      b'.filterOffsets ++ [b'.result.length % 2 ^ 32] := by
    rw [h.filterOffsets, h.result]
  rw [FilterBlockbuilder.createNewfilter, FilterBlockbuilder.createNewfilter, h.start]
  split
  · exact ⟨h.keys, rfl, h.result, hoffsets⟩
  · refine ⟨rfl, rfl, ?_, hoffsets⟩
    rw [List.length_append, List.length_append, BloomFilter.length_createFilter,
      BloomFilter.length_createFilter, h.keys, h.result]

theorem startBlock (h : Like b b') (o : ℕ) :
    Like (b.startBlock f hash o) (b'.startBlock f hash' o) := by
  rw [FilterBlockbuilder.startBlock, FilterBlockbuilder.startBlock]
  induction hn : o / kFilterBase - b.filterOffsets.length generalizing b b' with
  | zero =>
    have hlen : ¬ o / kFilterBase > b.filterOffsets.length := by omega
    have hlen' : ¬ o / kFilterBase > b'.filterOffsets.length := by rwa [← h.filterOffsets]
    rwa [createUpTo_of_not_gt _ _ hlen, createUpTo_of_not_gt _ _ hlen']
  | succ n ih =>
    have hlen : o / kFilterBase > b.filterOffsets.length := by omega
    have hlen' : o / kFilterBase > b'.filterOffsets.length := by rwa [← h.filterOffsets]
    rw [createUpTo_of_gt _ _ hlen, createUpTo_of_gt _ _ hlen']
    apply ih h.createNewfilter
    rw [length_createNewfilter]
    omega

theorem length_finish (h : Like b b') :
    (b.finish f hash).length = (b'.finish f hash').length := by
  have hlike : Like (if b.start = [] then b else b.createNewfilter f hash)
      (if b'.start = [] then b' else b'.createNewfilter f hash') := by
    rw [h.start]
    split
    · exact h
    · exact h.createNewfilter
  simp only [finish, List.length_append, length_flatMap_encodeFixed32, length_encodeFixed32,
    hlike.result, hlike.filterOffsets]

end FilterBlockbuilder.Like

/-! ## The reader -/

/-- A `char`, which is signed, as a `size_t`. -/
def charToSize (c : UInt8) : ℕ := if c.toNat < 128 then c.toNat else c.toNat + (2 ^ 64 - 256)

/-- `FilterBlockReader`. The pointer `data` is the bytes that the memory holds from there on, and the
pointer `offset` its distance from `data`. -/
structure FilterBlockReader where
  data : Bytes := []
  offset : ℕ := 0
  num : ℕ := 0
  baseLg : ℕ := 0
  deriving DecidableEq, Repr

namespace FilterBlockReader

/-- `FilterBlockReader::FilterBlockReader`, of contents that stand in front of the bytes `behind`. -/
def new (contents behind : Bytes) : FilterBlockReader :=
  let n := contents.length
  if n < 5 then {}
  else
    let data := contents ++ behind
    let baseLg := charToSize (contents.getD (n - 1) 0)
    let indexOffset := decodeFixed32 (contents.drop (n - 5))
    if indexOffset > n - 5 then { data, baseLg }
    else { data, offset := indexOffset, num := (n - 5 - indexOffset) / 4, baseLg }

/-- `KeyMayMatch`. Of the eight bytes that each `DecodeFixed64` reads only the lower four count; the
others may stand behind the contents. -/
def keyMayMatch (r : FilterBlockReader) (hash : Bytes → UInt32) (blockOffset : ℕ) (key : Bytes) :
    Bool :=
  let index := blockOffset >>> r.baseLg
  if index < r.num then
    let start := decodeFixed64 (r.data.drop (r.offset + index * 4)) % 2 ^ 32
    let limit := decodeFixed64 (r.data.drop (r.offset + index * 4 + 4)) % 2 ^ 32
    if start ≤ limit ∧ limit ≤ r.offset then
      BloomFilter.keyMayMatch hash key ((r.data.drop start).take (limit - start))
    else if start = limit then false
    else true
  else true

end FilterBlockReader

/-! ## Groups of keys -/

/-- The keys whose filters are made, and those that wait for theirs. -/
structure FilterGroups where
  closed : List (List Bytes) := []
  pending : List Bytes := []

namespace FilterGroups

def addKey (g : FilterGroups) (key : Bytes) : FilterGroups := { g with pending := g.pending ++ [key] }

def close (g : FilterGroups) : FilterGroups := ⟨g.closed ++ [g.pending], []⟩

def startBlock (g : FilterGroups) (blockOffset : ℕ) : FilterGroups :=
  close^[blockOffset / kFilterBase - g.closed.length] g

def finish (g : FilterGroups) : List (List Bytes) :=
  if g.pending = [] then g.closed else g.closed ++ [g.pending]

/-- The group that an index names. -/
def groupAt (g : FilterGroups) (i : ℕ) : List Bytes := (g.closed ++ [g.pending]).getD i []

variable {g : FilterGroups} {i o : ℕ} {key : Bytes}

/-- Closing a group only makes room for the next. -/
theorem groupAt_close : g.close.groupAt i = g.groupAt i := by
  simp only [groupAt, close, List.getD_eq_getElem?_getD]
  rcases Nat.lt_or_ge i (g.closed ++ [g.pending]).length with hlt | hge
  · rw [List.getElem?_append_left hlt]
  · rw [List.getElem?_append_right hge, List.getElem?_eq_none hge]
    rcases Nat.eq_zero_or_pos (i - (g.closed ++ [g.pending]).length) with hzero | hpos
    · rw [hzero]
      rfl
    · rw [List.getElem?_eq_none hpos]

theorem groupAt_close_iterate (n : ℕ) : (close^[n] g).groupAt i = g.groupAt i := by
  induction n generalizing g with
  | zero => rfl
  | succ n ih => rw [Function.iterate_succ_apply, ih, groupAt_close]

theorem length_close_iterate (n : ℕ) : (close^[n] g).closed.length = g.closed.length + n := by
  induction n generalizing g with
  | zero => rfl
  | succ n ih =>
    rw [Function.iterate_succ_apply, ih, close, List.length_append, List.length_singleton]
    omega

theorem groupAt_startBlock : (g.startBlock o).groupAt i = g.groupAt i := groupAt_close_iterate _

theorem length_startBlock :
    (g.startBlock o).closed.length = max g.closed.length (o / kFilterBase) := by
  rw [startBlock, length_close_iterate]
  omega

theorem groupAt_addKey :
    (g.addKey key).groupAt i = if i = g.closed.length then g.groupAt i ++ [key] else g.groupAt i := by
  simp only [groupAt, addKey, List.getD_eq_getElem?_getD]
  rcases Nat.lt_trichotomy i g.closed.length with hlt | rfl | hgt
  · rw [if_neg hlt.ne, List.getElem?_append_left hlt, List.getElem?_append_left hlt]
  · simp
  · rw [if_neg hgt.ne', List.getElem?_eq_none (by simpa using Nat.succ_le_of_lt hgt),
      List.getElem?_eq_none (by simpa using Nat.succ_le_of_lt hgt)]

theorem getD_finish : g.finish.getD i [] = g.groupAt i := by
  rw [finish, groupAt]
  split
  · next hnil =>
    rw [hnil, List.getD_eq_getElem?_getD, List.getD_eq_getElem?_getD]
    rcases Nat.lt_trichotomy i g.closed.length with hlt | rfl | hgt
    · rw [List.getElem?_append_left hlt]
    · simp
    · rw [List.getElem?_eq_none hgt.le, List.getElem?_eq_none (by simpa using Nat.succ_le_of_lt hgt)]
  · rfl

end FilterGroups

/-! ## The bytes for groups -/

section
variable (f : BloomFilter) (hash : Bytes → UInt32)

/-- The filter of a group. -/
def filterBytes (group : List Bytes) : Bytes := if group = [] then [] else f.createFilter hash group

/-- Where the filter of a group starts. -/
def filterStart (groups : List (List Bytes)) (i : ℕ) : ℕ :=
  ((groups.take i).flatMap (filterBytes f hash)).length

/-- The bytes in front of the offsets. -/
def filterResult (groups : List (List Bytes)) : Bytes := groups.flatMap (filterBytes f hash)

def filterOffsets (groups : List (List Bytes)) : List ℕ :=
  (List.range groups.length).map fun i => filterStart f hash groups i % 2 ^ 32

/-- The whole block. -/
def filterBlock (groups : List (List Bytes)) : Bytes :=
  filterResult f hash groups ++ (filterOffsets f hash groups).flatMap encodeFixed32 ++
    encodeFixed32 ((filterResult f hash groups).length % 2 ^ 32) ++ [UInt8.ofNat kFilterBaseLg]

/-- The builder stands for the groups. -/
structure FilterBlockbuilder.Groups (b : FilterBlockbuilder) (g : FilterGroups) : Prop where
  keys : b.keys = g.pending.flatten
  start : b.start = g.pending.map (·.length)
  result : b.result = filterResult f hash g.closed
  filterOffsets : b.filterOffsets = Yubindb.filterOffsets f hash g.closed

end

namespace FilterBlockbuilder.Groups
variable {f : BloomFilter} {hash : Bytes → UInt32} {b : FilterBlockbuilder} {g : FilterGroups}

theorem tmpKeys_flatten (ks : List Bytes) : tmpKeys ks.flatten (ks.map (·.length)) = ks := by
  induction ks with
  | nil => rfl
  | cons k ks ih =>
    rw [List.flatten_cons, List.map_cons, tmpKeys, List.take_left, List.drop_left, ih]

theorem filterOffsets_concat (groups : List (List Bytes)) (group : List Bytes) :
    Yubindb.filterOffsets f hash (groups ++ [group]) =
      Yubindb.filterOffsets f hash groups ++ [(filterResult f hash groups).length % 2 ^ 32] := by
  simp only [Yubindb.filterOffsets, List.length_append, List.length_singleton, List.range_succ,
    List.map_append, List.map_singleton]
  congr 1
  · apply List.map_congr_left
    intro i hi
    rw [filterStart, filterStart, List.take_append_of_le_length (List.mem_range.mp hi).le]
  · rw [filterStart, List.take_left]
    rfl

theorem empty : Groups f hash {} {} := ⟨rfl, rfl, rfl, rfl⟩

theorem addKey (h : Groups f hash b g) (key : Bytes) :
    Groups f hash (b.addKey key) (g.addKey key) where
  keys := by simp [FilterBlockbuilder.addKey, FilterGroups.addKey, h.keys]
  start := by simp [FilterBlockbuilder.addKey, FilterGroups.addKey, h.start]
  result := h.result
  filterOffsets := h.filterOffsets

theorem createNewfilter (h : Groups f hash b g) :
    Groups f hash (b.createNewfilter f hash) g.close := by
  have hoffsets : b.filterOffsets ++ [b.result.length % 2 ^ 32] =
      Yubindb.filterOffsets f hash (g.closed ++ [g.pending]) := by
    rw [filterOffsets_concat, h.filterOffsets, h.result]
  have hresult : filterResult f hash (g.closed ++ [g.pending]) =
      b.result ++ filterBytes f hash g.pending := by
    rw [h.result, filterResult, filterResult, List.flatMap_append, List.flatMap_singleton]
  rw [FilterBlockbuilder.createNewfilter, h.start, List.length_map, FilterGroups.close]
  by_cases hnil : g.pending = []
  · rw [if_pos (List.length_eq_zero_iff.mpr hnil)]
    have hfilter : filterBytes f hash g.pending = [] := if_pos hnil
    rw [hfilter, List.append_nil] at hresult
    exact ⟨h.keys.trans (by rw [hnil]), by rw [hnil], hresult.symm, hoffsets⟩
  · rw [if_neg (mt List.length_eq_zero_iff.mp hnil), h.keys, tmpKeys_flatten]
    have hfilter : filterBytes f hash g.pending = f.createFilter hash g.pending := if_neg hnil
    rw [hfilter] at hresult
    exact ⟨rfl, rfl, hresult.symm, hoffsets⟩

theorem length (h : Groups f hash b g) : b.filterOffsets.length = g.closed.length := by
  rw [h.filterOffsets, Yubindb.filterOffsets, List.length_map, List.length_range]

theorem startBlock (h : Groups f hash b g) (o : ℕ) :
    Groups f hash (b.startBlock f hash o) (g.startBlock o) := by
  rw [FilterBlockbuilder.startBlock, FilterGroups.startBlock]
  induction hn : o / kFilterBase - g.closed.length generalizing b g with
  | zero =>
    have hlen := h.length
    rwa [createUpTo_of_not_gt _ _ (by omega)]
  | succ n ih =>
    have hlen := h.length
    rw [createUpTo_of_gt _ _ (by omega), Function.iterate_succ_apply]
    apply ih h.createNewfilter
    rw [FilterGroups.close, List.length_append, List.length_singleton]
    omega

theorem finish (h : Groups f hash b g) : b.finish f hash = filterBlock f hash g.finish := by
  have hstart : b.start = [] ↔ g.pending = [] := by rw [h.start, List.map_eq_nil_iff]
  have hclosed : Groups f hash (if b.start = [] then b else b.createNewfilter f hash)
      ⟨g.finish, []⟩ := by
    rw [FilterGroups.finish]
    by_cases hnil : g.pending = []
    · rw [if_pos (hstart.mpr hnil), if_pos hnil]
      exact ⟨by rw [h.keys, hnil], by rw [h.start, hnil], h.result, h.filterOffsets⟩
    · rw [if_neg (mt hstart.mp hnil), if_neg hnil]
      exact h.createNewfilter
  rw [FilterBlockbuilder.finish, filterBlock, ← hclosed.result, ← hclosed.filterOffsets]

end FilterBlockbuilder.Groups

/-! ## The test -/

section
variable {f : BloomFilter} {hash : Bytes → UInt32} {groups : List (List Bytes)} {i o : ℕ} {key : Bytes}

theorem filterStart_succ (hi : i < groups.length) :
    filterStart f hash groups (i + 1) =
      filterStart f hash groups i + (filterBytes f hash groups[i]).length := by
  rw [filterStart, List.take_succ_eq_append_getElem hi, List.flatMap_append, List.length_append,
    List.flatMap_singleton]
  rfl

theorem filterStart_le (i : ℕ) :
    filterStart f hash groups i ≤ (filterResult f hash groups).length := by
  have : filterResult f hash groups = (groups.take i).flatMap (filterBytes f hash) ++
      (groups.drop i).flatMap (filterBytes f hash) := by
    rw [← List.flatMap_append, List.take_append_drop]
    rfl
  rw [this, List.length_append]
  exact Nat.le_add_right _ _

theorem filterStart_length :
    filterStart f hash groups groups.length = (filterResult f hash groups).length := by
  rw [filterStart, List.take_length]
  rfl

theorem length_filterBlock : (filterBlock f hash groups).length =
    (filterResult f hash groups).length + (groups.length + 1) * 4 + 1 := by
  simp only [filterBlock, filterOffsets, List.length_append, length_flatMap_encodeFixed32,
    List.length_map, List.length_range, length_encodeFixed32, List.length_singleton]
  omega

/-- The offsets are followed by one more, the end of the last filter. -/
theorem drop_filterBlock (hi : i ≤ groups.length) :
    ∃ rest, (filterBlock f hash groups).drop ((filterResult f hash groups).length + i * 4) =
      encodeFixed32 (filterStart f hash groups i % 2 ^ 32) ++ rest := by
  have hall : filterBlock f hash groups = filterResult f hash groups ++
      (((List.range (groups.length + 1)).map fun i => filterStart f hash groups i % 2 ^ 32).flatMap
        encodeFixed32 ++ [UInt8.ofNat kFilterBaseLg]) := by
    rw [filterBlock, filterOffsets, List.range_succ, List.map_append, List.flatMap_append,
      List.map_singleton, List.flatMap_singleton, filterStart_length]
    simp only [List.append_assoc]
  have hlt : i < ((List.range (groups.length + 1)).map
      fun i => filterStart f hash groups i % 2 ^ 32).length := by
    rw [List.length_map, List.length_range]
    omega
  rw [hall, ← List.drop_drop, List.drop_left, List.drop_append_of_le_length
    (by rw [length_flatMap_encodeFixed32]; omega), drop_flatMap_encodeFixed32,
    List.drop_eq_getElem_cons hlt, List.flatMap_cons, List.getElem_map, List.getElem_range,
    List.append_assoc]
  exact ⟨_, rfl⟩

theorem take_drop_filterResult (hi : i < groups.length) (tail : Bytes) :
    ((filterResult f hash groups ++ tail).drop (filterStart f hash groups i)).take
      (filterBytes f hash groups[i]).length = filterBytes f hash groups[i] := by
  have hsplit : filterResult f hash groups = (groups.take i).flatMap (filterBytes f hash) ++
      (filterBytes f hash groups[i] ++ (groups.drop (i + 1)).flatMap (filterBytes f hash)) := by
    rw [← List.flatMap_cons, ← List.drop_eq_getElem_cons hi, ← List.flatMap_append,
      List.take_append_drop]
    rfl
  rw [hsplit, filterStart, List.append_assoc, List.drop_left, List.append_assoc, List.take_left]

theorem getLast_filterBlock :
    (filterBlock f hash groups).getD ((filterBlock f hash groups).length - 1) 0 =
      UInt8.ofNat kFilterBaseLg := by
  rw [List.getD_eq_getElem?_getD, ← List.getLast?_eq_getElem?, filterBlock, List.getLast?_concat]
  rfl

/-- The offset of a filter is read from the bytes that end with it. -/
theorem decodeFixed64_filterBlock (hlen : (filterBlock f hash groups).length < 2 ^ 32)
    {i : ℕ} (hi : i ≤ groups.length) (behind : Bytes) :
    decodeFixed64 ((filterBlock f hash groups ++ behind).drop
      ((filterResult f hash groups).length + i * 4)) % 2 ^ 32 = filterStart f hash groups i := by
  have hn : (filterBlock f hash groups).length = _ := length_filterBlock
  obtain ⟨rest, hrest⟩ := @drop_filterBlock f hash _ _ hi
  have hle := @filterStart_le f hash groups i
  rw [List.drop_append_of_le_length (by omega), hrest, List.append_assoc,
    decodeFixed64_encodeFixed32 (Nat.mod_lt _ (by decide)), Nat.mod_eq_of_lt (by omega)]

/-- The offsets begin behind the filters. -/
theorem decodeFixed32_filterBlock (hlen : (filterBlock f hash groups).length < 2 ^ 32) :
    decodeFixed32 ((filterBlock f hash groups).drop ((filterBlock f hash groups).length - 5)) =
      (filterResult f hash groups).length := by
  have hn : (filterBlock f hash groups).length = _ := length_filterBlock
  have hat : (filterBlock f hash groups).length - 5 =
      (filterResult f hash groups).length + groups.length * 4 := by omega
  obtain ⟨rest, hrest⟩ := @drop_filterBlock f hash _ _ (Nat.le_refl groups.length)
  rw [hat, hrest, decodeFixed32_encode (Nat.mod_lt _ (by decide)), filterStart_length,
    Nat.mod_eq_of_lt (by omega)]

/-- The reader of a filter block. -/
theorem new_filterBlock (hlen : (filterBlock f hash groups).length < 2 ^ 32) (behind : Bytes) :
    FilterBlockReader.new (filterBlock f hash groups) behind =
      ⟨filterBlock f hash groups ++ behind, (filterResult f hash groups).length, groups.length,
        kFilterBaseLg⟩ := by
  have hn : (filterBlock f hash groups).length = _ := length_filterBlock
  have hlast : charToSize (UInt8.ofNat kFilterBaseLg) = kFilterBaseLg := rfl
  simp only [FilterBlockReader.new, decodeFixed32_filterBlock hlen, getLast_filterBlock, hlast]
  rw [if_neg (by omega), if_neg (by omega)]
  congr 1
  omega

/-- A test asks the filter of the group of the offset, if there is one. -/
theorem keyMayMatch_filterBlock (behind : Bytes)
    (hlen : (filterBlock f hash groups).length < 2 ^ 32) :
    (FilterBlockReader.new (filterBlock f hash groups) behind).keyMayMatch hash o key =
      if o / kFilterBase < groups.length then
        BloomFilter.keyMayMatch hash key (filterBytes f hash (groups.getD (o / kFilterBase) []))
      else true := by
  have hshift : o >>> kFilterBaseLg = o / kFilterBase := Nat.shiftRight_eq_div_pow o kFilterBaseLg
  rw [new_filterBlock hlen, FilterBlockReader.keyMayMatch]
  simp only [hshift]
  split
  · next hlt =>
    have hstart := decodeFixed64_filterBlock hlen hlt.le behind
    have hlimit := decodeFixed64_filterBlock (i := o / kFilterBase + 1) hlen hlt behind
    rw [Nat.succ_mul, ← Nat.add_assoc] at hlimit
    have hsucc := @filterStart_succ f hash _ _ hlt
    have hle := @filterStart_le f hash groups (o / kFilterBase + 1)
    rw [hstart, hlimit, if_pos ⟨by omega, hle⟩, List.getD_eq_getElem _ _ hlt]
    congr 1
    have hlength : filterStart f hash groups (o / kFilterBase + 1) -
        filterStart f hash groups (o / kFilterBase) =
          (filterBytes f hash groups[o / kFilterBase]).length := by omega
    rw [hlength, filterBlock, List.append_assoc, List.append_assoc, List.append_assoc]
    exact take_drop_filterResult hlt _
  · rfl

end

/-! ## Runs of the builder -/

/-- A call before `Finish`. -/
inductive FilterCall
  | addKey (key : Bytes)
  | startBlock (blockOffset : ℕ)
  deriving DecidableEq, Repr

namespace FilterCall

def run (f : BloomFilter) (hash : Bytes → UInt32) (b : FilterBlockbuilder) :
    FilterCall → FilterBlockbuilder
  | .addKey key => b.addKey key
  | .startBlock o => b.startBlock f hash o

end FilterCall

/-- The offsets of the blocks do not decrease, from `o` on. -/
def OffsetsAscend : ℕ → List FilterCall → Prop
  | _, [] => True
  | o, .addKey _ :: calls => OffsetsAscend o calls
  | o, .startBlock o' :: calls => o ≤ o' ∧ OffsetsAscend o' calls

/-- Each key, with the offset of the block to which it is added. -/
def addedKeys : ℕ → List FilterCall → List (ℕ × Bytes)
  | _, [] => []
  | o, .addKey key :: calls => (o, key) :: addedKeys o calls
  | _, .startBlock o' :: calls => addedKeys o' calls

section
variable (f : BloomFilter) (hash : Bytes → UInt32)

/-- What `Finish` returns after the calls. -/
def finishedFilter (calls : List FilterCall) : Bytes :=
  (calls.foldl (FilterCall.run f hash) {}).finish f hash

/-- The keys that share the filter of the offset. -/
def sharedKeys (keys : List (ℕ × Bytes)) (o : ℕ) : List Bytes :=
  (keys.filter fun p => p.1 / kFilterBase = o / kFilterBase).map Prod.snd

/-- The builder in a block at offset `o`: the filters made so far are those below the offset's own, and
the keys are in the groups of the offsets of their blocks. -/
structure FilterBlockbuilder.Keeps (b : FilterBlockbuilder) (g : FilterGroups) (o : ℕ)
    (keys : List (ℕ × Bytes)) : Prop where
  groups : b.Groups f hash g
  length : g.closed.length = o / kFilterBase
  shared : ∀ o, g.groupAt (o / kFilterBase) = sharedKeys keys o

end

namespace FilterBlockbuilder.Keeps
variable {f : BloomFilter} {hash : Bytes → UInt32} {b : FilterBlockbuilder} {g : FilterGroups}
  {o : ℕ} {keys : List (ℕ × Bytes)}

theorem empty : Keeps f hash {} {} 0 [] where
  groups := .empty
  length := (Nat.zero_div _).symm
  shared o := by
    rw [FilterGroups.groupAt]
    cases o / kFilterBase <;> rfl

theorem addKey (h : Keeps f hash b g o keys) (key : Bytes) :
    Keeps f hash (b.addKey key) (g.addKey key) o (keys ++ [(o, key)]) where
  groups := h.groups.addKey key
  length := h.length
  shared o' := by
    rw [FilterGroups.groupAt_addKey, h.length, h.shared, sharedKeys, sharedKeys, List.filter_append,
      List.map_append]
    by_cases ho : o' / kFilterBase = o / kFilterBase
    · simp [ho]
    · simp [ho, Ne.symm ho]

theorem startBlock (h : Keeps f hash b g o keys) {o' : ℕ} (ho : o ≤ o') :
    Keeps f hash (b.startBlock f hash o') (g.startBlock o') o' keys where
  groups := h.groups.startBlock o'
  length := by
    rw [FilterGroups.length_startBlock, h.length]
    exact Nat.max_eq_right (Nat.div_le_div_right ho)
  shared o₁ := by
    rw [FilterGroups.groupAt_startBlock]
    exact h.shared o₁

/-- A run of calls keeps the keys that it adds. -/
theorem run (h : Keeps f hash b g o keys) {calls : List FilterCall} (hcalls : OffsetsAscend o calls) :
    ∃ g' o', Keeps f hash (calls.foldl (FilterCall.run f hash) b) g' o'
      (keys ++ addedKeys o calls) := by
  induction calls generalizing b g o keys with
  | nil => exact ⟨g, o, by rwa [addedKeys, List.append_nil]⟩
  | cons call calls ih =>
    cases call with
    | addKey key =>
      obtain ⟨g', o', hrest⟩ := ih (h.addKey key) hcalls
      exact ⟨g', o', by rwa [List.append_assoc] at hrest⟩
    | startBlock o₁ => exact ih (h.startBlock hcalls.1) hcalls.2

/-- The test passes the keys of which the filters get the bits. -/
theorem keyMayMatch (h : Keeps f hash b g o keys) (hlen : (b.finish f hash).length < 2 ^ 32)
    {o₁ : ℕ} {key : Bytes} (hkey : key ∈ f.hashed (sharedKeys keys o₁)) (behind : Bytes) :
    (FilterBlockReader.new (b.finish f hash) behind).keyMayMatch hash o₁ key = true := by
  rw [h.groups.finish] at hlen ⊢
  rw [keyMayMatch_filterBlock behind hlen, FilterGroups.getD_finish, h.shared]
  split
  · next hlt =>
    have hne : sharedKeys keys o₁ ≠ [] := by
      intro hnil
      rw [hnil] at hkey
      simp [BloomFilter.hashed] at hkey
    rw [filterBytes, if_neg hne]
    exact f.keyMayMatch_of_mem hkey
  · rfl

end FilterBlockbuilder.Keeps

/-- A filter block has no false negatives: the test passes a key at the offset of the block to which
it was added. `bits_key` comes from a positive `int`, and a filter is made for fewer than `2 ^ 31` keys. -/
theorem keyMayMatch_finishedFilter {f : BloomFilter} {hash : Bytes → UInt32}
    {calls : List FilterCall} (hbits : f.bitsKey < 2 ^ 31) (hcalls : OffsetsAscend 0 calls)
    (hlen : (finishedFilter f hash calls).length < 2 ^ 32) {o : ℕ} {key : Bytes}
    (hshared : (sharedKeys (addedKeys 0 calls) o).length < 2 ^ 31)
    (hkey : (o, key) ∈ addedKeys 0 calls) (behind : Bytes) :
    (FilterBlockReader.new (finishedFilter f hash calls) behind).keyMayMatch hash o key = true := by
  obtain ⟨g, o', hkeeps⟩ := FilterBlockbuilder.Keeps.empty.run hcalls
  rw [List.nil_append] at hkeeps
  refine hkeeps.keyMayMatch hlen ?_ behind
  rw [f.hashed_eq hbits hshared]
  exact List.mem_map.mpr ⟨(o, key), List.mem_filter.mpr ⟨hkey, decide_eq_true rfl⟩, rfl⟩

/-- Keys of two blocks that share a filter, and a key of a block behind empty filters. -/
def sharedFilter : List FilterCall :=
  [.addKey [1], .startBlock 100, .addKey [2], .startBlock 9000, .addKey [3]]

def foldHash (key : Bytes) : UInt32 := key.foldl (fun h b => h * 31 + b.toUInt32) 0

theorem keyMayMatch_sharedFilter :
    (FilterBlockReader.new (finishedFilter ⟨10, 6, by decide, by decide⟩ foldHash sharedFilter)
      [255, 255, 255]).keyMayMatch foldHash 100 [2] = true := by
  have hcalls : OffsetsAscend 0 sharedFilter := ⟨Nat.zero_le _, by decide, trivial⟩
  exact keyMayMatch_finishedFilter (by decide) hcalls (by decide +kernel) (by decide) (by decide) _

/-- A filter that is made from the `int` -1: `bits + 7` wraps, the remainder is by zero, and what is left
is a filter of one byte. -/
theorem not_keyMayMatch_negative :
    BloomFilter.arrayLength ⟨2 ^ 64 - 1, 1, by decide, by decide⟩ 1 = 0 ∧
      ¬ ∀ (f : BloomFilter) (hash : Bytes → UInt32) (calls : List FilterCall),
        1 ≤ f.bitsKey ∧ f.bitsKey < 2 ^ 64 → OffsetsAscend 0 calls →
          (finishedFilter f hash calls).length < 2 ^ 32 → ∀ o key, (o, key) ∈ addedKeys 0 calls →
            ∀ behind, (FilterBlockReader.new (finishedFilter f hash calls) behind).keyMayMatch hash
              o key = true := by
  refine ⟨by decide, fun h => ?_⟩
  have hpass := h ⟨2 ^ 64 - 1, 1, by decide, by decide⟩ foldHash [.addKey [1]] (by decide) trivial
    (by decide +kernel) 0 [1] (by decide) []
  exact absurd hpass (by decide +kernel)

end Yubindb
