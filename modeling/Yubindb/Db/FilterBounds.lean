import Yubindb.Db.FilterBlock
import Yubindb.Theory.Checked

/-!
# What the filter reader reads

`FilterBlockReader` of `src/db/filterblock.cpp` and `BloomFilter::KeyMayMatch` of
`src/util/bloom.cpp` once more, with each read, each shift and each remainder checked. The bytes of an
offset are read eight at a time, although only four of them belong to it.
-/

namespace Yubindb
open BitArray Checked

/-! ## The filter of a group -/

namespace BloomFilter

/-- The loop of `KeyMayMatch`. -/
def testProbes (array : Bytes) (bits : ℕ) (delta : UInt32) : ℕ → UInt32 → Except Fault Bool
  | 0, _ => .ok true
  | n + 1, h => do
    let bitpos ← Checked.mod h.toNat bits
    let byte ← Checked.get array (bitpos / 8)
    let bit ← shiftAmount 64 (bitpos % 8)
    if byte.toNat &&& 1 <<< bit = 0 then .ok false
    else testProbes array bits delta n (h + delta)

/-- `KeyMayMatch`. -/
def checkedKeyMayMatch (hash : Bytes → UInt32) (key filter : Bytes) : Except Fault Bool :=
  let len := filter.length
  if len < 2 then .ok false
  else do
    let bits := (len - 1) * 8
    let hashSize ← Checked.get filter (len - 1)
    if charToSize hashSize > 30 then .ok true
    else
      let h := hash key
      let right ← shiftAmount 64 17
      let left ← shiftAmount 64 15
      let delta := h >>> UInt32.ofNat right ||| h <<< UInt32.ofNat left
      testProbes filter bits delta (charToSize hashSize) h

theorem testProbes_eq {array : Bytes} {bits : ℕ} (hbits : 0 < bits) (hlen : bits ≤ array.length * 8)
    (delta : UInt32) (n : ℕ) (h : UInt32) : testProbes array bits delta n h =
      .ok (((probes delta n h).map fun h => h.toNat % bits).all (getBit array)) := by
  induction n generalizing h with
  | zero => rfl
  | succ n ih =>
    have hlt : h.toNat % bits < bits := Nat.mod_lt _ hbits
    have hbyte : h.toNat % bits / 8 < array.length := by omega
    have hbit : getBit array (h.toNat % bits) =
        decide (array[h.toNat % bits / 8].toNat &&& 1 <<< (h.toNat % bits % 8) ≠ 0) := by
      rw [getBit, List.getD_eq_getElem _ _ hbyte]
    rw [testProbes, mod_of_pos hbits, ok_bind, get_of_lt hbyte, ok_bind,
      shiftAmount_of_lt (by omega), ok_bind, ih, probes, List.map_cons, List.all_cons, hbit]
    split
    · next hzero => simp [hzero]
    · next hzero => simp [hzero]

theorem charToSize_le {c : UInt8} (h : charToSize c ≤ 30) : charToSize c = c.toNat := by
  rw [charToSize] at h ⊢
  split at h
  · next hlt => rw [if_pos hlt]
  · omega

/-- The test of a filter has no fault, whatever bytes the filter is. -/
theorem checkedKeyMayMatch_eq (hash : Bytes → UInt32) (key filter : Bytes) :
    checkedKeyMayMatch hash key filter = .ok (keyMayMatch hash key filter) := by
  rw [checkedKeyMayMatch, keyMayMatch]
  by_cases hshort : filter.length < 2
  · rw [if_pos hshort, if_pos hshort]
  · have hlast : filter.length - 1 < filter.length := by omega
    rw [if_neg hshort, if_neg hshort, get_of_lt hlast, ok_bind, List.getD_eq_getElem _ _ hlast]
    split
    · next hlong =>
      rw [if_pos]
      rw [charToSize] at hlong
      split at hlong <;> omega
    · next hsize =>
      have hsize := charToSize_le (Nat.le_of_not_lt hsize)
      rw [if_neg (by omega), shiftAmount_of_lt (by decide), ok_bind, shiftAmount_of_lt (by decide),
        ok_bind, testProbes_eq (by omega) (by omega), hsize]
      rfl

end BloomFilter

/-! ## The reader -/

namespace FilterBlockReader

/-- `FilterBlockReader::FilterBlockReader`. -/
def checkedNew (contents : Bytes) : Except Fault FilterBlockReader :=
  let n := contents.length
  if n < 5 then .ok {}
  else do
    let data := contents
    let last ← Checked.get contents (n - 1)
    let baseLg := charToSize last
    let index ← slice contents (n - 5) 4
    let indexOffset := decodeFixed32 index
    if indexOffset > n - 5 then .ok { data, baseLg }
    else .ok { data, offset := indexOffset, num := (n - 5 - indexOffset) / 4, baseLg }

/-- `KeyMayMatch`. -/
def checkedKeyMayMatch (r : FilterBlockReader) (hash : Bytes → UInt32) (blockOffset : ℕ)
    (key : Bytes) : Except Fault Bool := do
  let amount ← shiftAmount 64 r.baseLg
  let index := blockOffset >>> amount
  if index < r.num then
    let startBytes ← slice r.data (r.offset + index * 4) 8
    let limitBytes ← slice r.data (r.offset + index * 4 + 4) 8
    let start := decodeFixed64 startBytes % 2 ^ 32
    let limit := decodeFixed64 limitBytes % 2 ^ 32
    if start ≤ limit ∧ limit ≤ r.offset then
      let filt ← slice r.data start (limit - start)
      BloomFilter.checkedKeyMayMatch hash key filt
    else if start = limit then .ok false
    else .ok true
  else .ok true

/-- `KeyMayMatch` of a reader for the contents. -/
def checkedTest (contents : Bytes) (hash : Bytes → UInt32) (blockOffset : ℕ) (key : Bytes) :
    Except Fault Bool := do
  let r ← checkedNew contents
  r.checkedKeyMayMatch hash blockOffset key

variable {contents : Bytes} {hash : Bytes → UInt32} {o : ℕ} {key : Bytes} {r : FilterBlockReader}

/-- The constructor reads inside of the contents. -/
theorem checkedNew_eq (contents : Bytes) : checkedNew contents = .ok (new contents []) := by
  rw [checkedNew, new]
  split
  · rfl
  · next hlong =>
    have hlast : contents.length - 1 < contents.length := by omega
    have hindex : slice contents (contents.length - 5) 4 =
        .ok ((contents.drop (contents.length - 5)).take 4) := slice_eq_ok.mpr ⟨by omega, rfl⟩
    rw [get_of_lt hlast, ok_bind, hindex, ok_bind, decodeFixed32, List.take_take, Nat.min_self,
      List.getD_eq_getElem _ _ hlast, List.append_nil]
    dsimp only
    rw [decodeFixed32]
    split <;> rfl

/-- A test has no fault where 64 bits can be shifted by `base_lg` and the eight bytes that are read
behind the filter's own offset are there. -/
theorem defined_checkedKeyMayMatch (hoffset : r.offset ≤ r.data.length) :
    Defined (r.checkedKeyMayMatch hash o key) ↔ r.baseLg < 64 ∧
      (o >>> r.baseLg < r.num → r.offset + (o >>> r.baseLg) * 4 + 12 ≤ r.data.length) := by
  rw [checkedKeyMayMatch, defined_bind]
  constructor
  · rintro ⟨amount, hamount, h⟩
    obtain ⟨hlt, rfl⟩ := shiftAmount_eq_ok.mp hamount
    refine ⟨hlt, fun hindex => ?_⟩
    dsimp only at h
    rw [if_pos hindex] at h
    obtain ⟨startBytes, -, h⟩ := defined_bind.mp h
    obtain ⟨limitBytes, hlimit, -⟩ := defined_bind.mp h
    have := (slice_eq_ok.mp hlimit).1
    omega
  · rintro ⟨hlt, hread⟩
    refine ⟨_, shiftAmount_of_lt hlt, ?_⟩
    dsimp only
    split
    · next hindex =>
      have hread := hread hindex
      refine defined_bind.mpr ⟨_, slice_eq_ok.mpr ⟨by omega, rfl⟩, ?_⟩
      refine defined_bind.mpr ⟨_, slice_eq_ok.mpr ⟨by omega, rfl⟩, ?_⟩
      split
      · next hfilter =>
        have hend := hfilter.2.trans hoffset
        refine defined_bind.mpr ⟨_, slice_eq_ok.mpr ⟨by omega, rfl⟩, ?_⟩
        rw [BloomFilter.checkedKeyMayMatch_eq]
        exact defined_ok _
      · split <;> exact defined_ok _
    · exact defined_ok _

theorem decodeFixed64_of_slice {data bytes : Bytes} {i : ℕ} (h : slice data i 8 = .ok bytes)
    (behind : Bytes) : decodeFixed64 ((data ++ behind).drop i) = decodeFixed64 bytes := by
  have hbytes := take_drop_append_of_slice h behind
  rw [decodeFixed64, decodeFixed64, hbytes, ← hbytes, List.take_take, Nat.min_self]

/-- Without a fault the test answers what it does in front of any bytes. -/
theorem keyMayMatch_of_checked {b : Bool} (h : r.checkedKeyMayMatch hash o key = .ok b)
    (behind : Bytes) : { r with data := r.data ++ behind }.keyMayMatch hash o key = b := by
  obtain ⟨amount, hamount, h⟩ := bind_eq_ok.mp h
  obtain ⟨-, rfl⟩ := shiftAmount_eq_ok.mp hamount
  rw [keyMayMatch]
  dsimp only at h ⊢
  split at h
  · next hindex =>
    obtain ⟨startBytes, hstart, h⟩ := bind_eq_ok.mp h
    obtain ⟨limitBytes, hlimit, h⟩ := bind_eq_ok.mp h
    rw [if_pos hindex, decodeFixed64_of_slice hstart, decodeFixed64_of_slice hlimit]
    split at h
    · next hfilter =>
      obtain ⟨filt, hfilt, h⟩ := bind_eq_ok.mp h
      rw [BloomFilter.checkedKeyMayMatch_eq] at h
      rw [if_pos hfilter, take_drop_append_of_slice hfilt]
      exact Except.ok.inj h
    · next hfilter =>
      rw [if_neg hfilter]
      split at h
      · next hempty =>
        rw [if_pos hempty]
        exact Except.ok.inj h
      · next hempty =>
        rw [if_neg hempty]
        exact Except.ok.inj h
  · next hindex =>
    rw [if_neg hindex]
    exact Except.ok.inj h

/-- The reader of contents in front of other bytes. -/
theorem new_behind (hlong : ¬ contents.length < 5) (behind : Bytes) :
    new contents behind = { new contents [] with data := (new contents []).data ++ behind } := by
  rw [new, new, if_neg hlong, if_neg hlong]
  dsimp only
  split <;> simp

/-- Where nothing fails, the checked test answers as the test does, whatever stands behind the contents. -/
theorem keyMayMatch_of_checkedTest {b : Bool} (h : checkedTest contents hash o key = .ok b)
    (behind : Bytes) : (new contents behind).keyMayMatch hash o key = b := by
  rw [checkedTest, checkedNew_eq, ok_bind] at h
  by_cases hshort : contents.length < 5
  · have hnew (behind : Bytes) : new contents behind = {} := if_pos hshort
    rw [hnew] at h ⊢
    exact keyMayMatch_of_checked h []
  · rw [new_behind hshort]
    exact keyMayMatch_of_checked h behind

/-- The last byte is a shift of 64 bits, and where the offsets have an entry for the block, the eight
bytes behind the entry belong to the contents. -/
def ReadsInside (contents : Bytes) (blockOffset : ℕ) : Prop :=
  let n := contents.length
  let baseLg := (contents.getD (n - 1) 0).toNat
  let indexOffset := decodeFixed32 (contents.drop (n - 5))
  let entry := indexOffset + blockOffset / 2 ^ baseLg * 4
  n < 5 ∨ baseLg < 64 ∧ (entry + 4 ≤ n - 5 → entry + 12 ≤ n)

theorem charToSize_lt_iff {c : UInt8} {n : ℕ} (hn : n ≤ 128) : charToSize c < n ↔ c.toNat < n := by
  rw [charToSize]
  split <;> omega

theorem defined_iff_readsInside :
    Defined (checkedTest contents hash o key) ↔ ReadsInside contents o := by
  rw [checkedTest, checkedNew_eq, ok_bind, new, ReadsInside]
  dsimp only
  split
  · next hshort =>
    rw [defined_checkedKeyMayMatch (Nat.zero_le _)]
    exact iff_of_true ⟨by decide, fun hindex => absurd hindex (Nat.not_lt_zero _)⟩ (.inl hshort)
  · next hlong =>
    have hbase : charToSize (contents.getD (contents.length - 1) 0) < 64 ↔
      (contents.getD (contents.length - 1) 0).toNat < 64 := charToSize_lt_iff (by decide)
    split
    · next hindex =>
      rw [defined_checkedKeyMayMatch (Nat.zero_le _), hbase, or_iff_right hlong]
      refine and_congr_right fun _ => iff_of_true ?_ fun hentry => ?_
      · exact fun hindex => absurd hindex (Nat.not_lt_zero _)
      · omega
    · next hindex =>
      rw [defined_checkedKeyMayMatch (by simpa using by omega), hbase, or_iff_right hlong]
      refine and_congr_right fun hlast => ?_
      have hshift : charToSize (contents.getD (contents.length - 1) 0) =
          (contents.getD (contents.length - 1) 0).toNat := if_pos (by omega)
      rw [hshift, List.append_nil]
      dsimp only
      rw [Nat.shiftRight_eq_div_pow]
      exact imp_congr_left (by omega)

/-- The checked test of any contents. -/
theorem defined_checkedTest_iff (contents : Bytes) (hash : Bytes → UInt32) (o : ℕ) (key : Bytes) :
    Defined (checkedTest contents hash o key) ↔ ReadsInside contents o :=
  defined_iff_readsInside

/-- One empty filter: the eight bytes of its end go beyond the contents. -/
theorem not_defined_checkedTest : ¬ ∀ contents hash o key,
    Defined (checkedTest contents hash o key) := by
  intro h
  obtain ⟨b, hb⟩ := h [0, 0, 0, 0, 0, 0, 0, 0, 11] (fun _ => 0) 0 []
  have herror : checkedTest [0, 0, 0, 0, 0, 0, 0, 0, 11] (fun _ => 0) 0 [] = .error .outside := by
    decide
  rw [herror] at hb
  cases hb

/-! ## Blocks of the builder -/

/-- The test of a block of the last group reads beyond the contents, and no other one does. -/
theorem readsInside_filterBlock {f : BloomFilter} {groups : List (List Bytes)}
    (hlen : (filterBlock f hash groups).length < 2 ^ 32) :
    ReadsInside (filterBlock f hash groups) o ↔ o / kFilterBase + 1 ≠ groups.length := by
  have hn : (filterBlock f hash groups).length = _ := length_filterBlock
  have hlast : (UInt8.ofNat kFilterBaseLg).toNat = 11 := rfl
  have hgroup : o / 2 ^ 11 = o / kFilterBase := rfl
  rw [ReadsInside, getLast_filterBlock, hlast, hgroup, decodeFixed32_filterBlock hlen]
  omega

/-- In front of the last group the checks do not matter. -/
theorem checkedTest_filterBlock {f : BloomFilter} {groups : List (List Bytes)}
    (hlen : (filterBlock f hash groups).length < 2 ^ 32)
    (hlast : o / kFilterBase + 1 ≠ groups.length) (behind : Bytes) :
    checkedTest (filterBlock f hash groups) hash o key =
      .ok ((new (filterBlock f hash groups) behind).keyMayMatch hash o key) := by
  obtain ⟨b, hb⟩ := defined_iff_readsInside.mpr ((readsInside_filterBlock hlen).mpr hlast)
  rw [hb, keyMayMatch_of_checkedTest hb behind]

end FilterBlockReader
end Yubindb
