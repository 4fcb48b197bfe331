import Mathlib.Algebra.Order.BigOperators.Group.List
import Yubindb.Db.Compaction
import Yubindb.Db.VersionGet

/-!
# Where a compaction begins a new output

`Compaction::ShouldStopBefore` of `src/db/version_set.cpp`. It has a cursor in the grandparents, the
files of `level_ + 2`, and adds up what the keys of the output have passed since the last `true`.
-/

namespace Yubindb
open Std

/-- What `ShouldStopBefore` keeps in a `Compaction`. `overlapbytes` is an `int64_t`. -/
structure GrandparentCursor where
  grandIndex : Nat := 0
  seenKey : Bool := false
  overlapbytes : Int := 0
  deriving DecidableEq, Repr

namespace Compaction

/-- `MaxGrandParentOverlapBytes`, a product of 32 bits. -/
def maxGrandParentOverlapBytes (maxFileSize : Nat) : Nat := (10 * maxFileSize) % 2 ^ 32

/-- The `while` of `ShouldStopBefore`, over the grandparents from `grand_index` on. -/
def passGrandparents (internalKey : Bytes) (st : GrandparentCursor) :
    List FileMate → Option GrandparentCursor
  | [] => some st
  | f :: fs => do
    if (← viewCmp internalKey f.largest.Key) ≠ .gt then return st
    passGrandparents internalKey
      { st with
        grandIndex := st.grandIndex + 1
        overlapbytes :=
          if st.seenKey then (st.overlapbytes + f.fileSize).bmod (2 ^ 64) else st.overlapbytes } fs

/-- `ShouldStopBefore`: what it returns, and what it leaves. -/
def shouldStopBefore (grandparents : List FileMate) (maxFileSize : Nat) (internalKey : Bytes)
    (st : GrandparentCursor) : Option (Bool × GrandparentCursor) := do
  let st ← passGrandparents internalKey st (grandparents.drop st.grandIndex)
  if st.overlapbytes > maxGrandParentOverlapBytes maxFileSize then
    return (true, { st with seenKey := true, overlapbytes := 0 })
  else return (false, { st with seenKey := true })

/-- The answers to the keys, one call for each. -/
def stopAnswers (grandparents : List FileMate) (maxFileSize : Nat) :
    GrandparentCursor → List Bytes → Option (List Bool)
  | _, [] => some []
  | st, key :: keys => do
    let (stop, st) ← shouldStopBefore grandparents maxFileSize key st
    let answers ← stopAnswers grandparents maxFileSize st keys
    return stop :: answers

/-! ## What it is for -/

/-- The bytes of the files that end at the first key or behind it, and in front of the second. -/
def overlapBetween (files : List FileMate) (start key : Bytes) : Nat :=
  VersionSet.totalFileSize
    (files.filter fun f => (cmp start f.largest.Key).isLE ∧ cmp key f.largest.Key = .gt)

/-- The answers, where the overlap of the output, begun at `start`, is added up anew for each key. -/
def stopsFrom (files : List FileMate) (limit : Nat) (start : Bytes) : List Bytes → List Bool
  | [] => []
  | key :: keys =>
    if limit < overlapBetween files start key then true :: stopsFrom files limit key keys
    else false :: stopsFrom files limit start keys

/-- The keys are internal keys, and no file ends in front of one before it. -/
structure GrandparentsAscend (files : List FileMate) : Prop where
  long : ∀ f ∈ files, 8 ≤ f.largest.Key.length
  sorted : files.Pairwise fun f g => (cmp f.largest.Key g.largest.Key).isLE

variable {files fs : List FileMate} {key start : Bytes} {keys : List Bytes} {maxFileSize : Nat}
  {st : GrandparentCursor}

theorem totalFileSize_append (fs fs' : List FileMate) :
    VersionSet.totalFileSize (fs ++ fs') =
      VersionSet.totalFileSize fs + VersionSet.totalFileSize fs' := by
  simp only [VersionSet.totalFileSize, List.map_append, List.sum_append]

theorem totalFileSize_cons (f : FileMate) (fs : List FileMate) :
    VersionSet.totalFileSize (f :: fs) = f.fileSize + VersionSet.totalFileSize fs := List.sum_cons

theorem totalFileSize_filter_le (fs : List FileMate) (p : FileMate → Bool) :
    VersionSet.totalFileSize (fs.filter p) ≤ VersionSet.totalFileSize fs :=
  (List.filter_sublist.map FileMate.fileSize).sum_le_sum fun _ _ => Nat.zero_le _

theorem bmod_of_bounds {x : Int} (h0 : 0 ≤ x) (h : x < 2 ^ 63) : x.bmod (2 ^ 64) = x := by
  rw [Int.bmod_def]
  omega

theorem GrandparentsAscend.tail {f : FileMate} (h : GrandparentsAscend (f :: fs)) :
    GrandparentsAscend fs where
  long := (List.forall_mem_cons.mp h.long).2
  sorted := (List.pairwise_cons.mp h.sorted).2

theorem GrandparentsAscend.of_append {fs' : List FileMate} (h : GrandparentsAscend (fs ++ fs')) :
    GrandparentsAscend fs' where
  long f hf := h.long f (List.mem_append_right fs hf)
  sorted := (List.pairwise_append.mp h.sorted).2.1

/-- The loop passes the files that end in front of the key. -/
theorem passGrandparents_eq (hkey : 8 ≤ key.length) (h : GrandparentsAscend fs)
    (h0 : 0 ≤ st.overlapbytes)
    (hsum : st.overlapbytes + VersionSet.totalFileSize fs < 2 ^ 63) :
    ∃ passed rest, fs = passed ++ rest ∧ (∀ f ∈ passed, cmp key f.largest.Key = .gt) ∧
      (∀ f ∈ rest, (cmp key f.largest.Key).isLE) ∧
      passGrandparents key st fs = some { st with
        grandIndex := st.grandIndex + passed.length
        overlapbytes :=
          st.overlapbytes + if st.seenKey then (VersionSet.totalFileSize passed : Int) else 0 } := by
  induction fs generalizing st with
  | nil =>
    refine ⟨[], [], rfl, List.forall_mem_nil _, List.forall_mem_nil _, ?_⟩
    simp [passGrandparents, VersionSet.totalFileSize]
  | cons f fs ih =>
    have hview : viewCmp key f.largest.Key = some (cmp key f.largest.Key) :=
      viewCmp_eq_some.mpr ⟨⟨hkey, h.long f List.mem_cons_self⟩, rfl⟩
    rw [passGrandparents, hview, Option.bind_eq_bind, Option.bind_some]
    rw [totalFileSize_cons, Nat.cast_add] at hsum
    by_cases hpass : cmp key f.largest.Key = .gt
    · rw [if_neg (not_not.mpr hpass)]
      have hbmod : (st.overlapbytes + f.fileSize).bmod (2 ^ 64) = st.overlapbytes + f.fileSize :=
        bmod_of_bounds (by omega) (by omega)
      rw [hbmod]
      obtain ⟨passed, rest, rfl, hpassed, hrest, heq⟩ := @ih
        { st with
          grandIndex := st.grandIndex + 1
          overlapbytes := if st.seenKey then st.overlapbytes + f.fileSize else st.overlapbytes }
        h.tail (by dsimp only; split <;> omega) (by dsimp only; split <;> omega)
      refine ⟨f :: passed, rest, rfl, List.forall_mem_cons.mpr ⟨hpass, hpassed⟩, hrest, ?_⟩
      have hindex : st.grandIndex + 1 + passed.length = st.grandIndex + (passed.length + 1) := by omega
      rw [heq, totalFileSize_cons, List.length_cons, Nat.cast_add, hindex]
      cases st.seenKey
      · rfl
      · simp only [if_true, Int.add_assoc]
    · rw [if_pos hpass]
      refine ⟨[], f :: fs, rfl, List.forall_mem_nil _, List.forall_mem_cons.mpr ?_, ?_⟩
      · have hle := Ordering.ne_gt_iff_isLE.mp hpass
        exact ⟨hle, fun g hg => TransCmp.isLE_trans hle ((List.pairwise_cons.mp h.sorted).1 g hg)⟩
      · simp [VersionSet.totalFileSize]

/-! ## A run -/

/-- Behind the call with `key`, where the output has begun with `start`: the files in front of the cursor
are those that end in front of the key. -/
def At (files : List FileMate) (start key : Bytes) (st : GrandparentCursor) : Prop :=
  ∃ passed rest, files = passed ++ rest ∧ st.grandIndex = passed.length ∧ st.seenKey = true ∧
    (∀ f ∈ passed, cmp key f.largest.Key = .gt) ∧ (∀ f ∈ rest, (cmp key f.largest.Key).isLE) ∧
    st.overlapbytes =
      VersionSet.totalFileSize (passed.filter fun f => (cmp start f.largest.Key).isLE)

/-- The overlap is that of the files in front of the cursor. -/
theorem overlapBetween_eq {passed rest : List FileMate}
    (hpassed : ∀ f ∈ passed, cmp key f.largest.Key = .gt)
    (hrest : ∀ f ∈ rest, (cmp key f.largest.Key).isLE) :
    overlapBetween (passed ++ rest) start key =
      VersionSet.totalFileSize (passed.filter fun f => (cmp start f.largest.Key).isLE) := by
  have hnone : rest.filter (fun f => (cmp start f.largest.Key).isLE ∧ cmp key f.largest.Key = .gt) =
      [] := by
    refine List.filter_eq_nil_iff.mpr fun f hf => ?_
    have hle := Ordering.isLE_iff_ne_gt.mp (hrest f hf)
    simp [hle]
  rw [overlapBetween, List.filter_append, hnone, List.append_nil]
  refine congrArg _ (List.filter_congr fun f hf => ?_)
  simp [hpassed f hf]

/-- What has been passed ends in front of the key. -/
theorem filter_passed_eq_nil {passed : List FileMate}
    (hpassed : ∀ f ∈ passed, cmp key f.largest.Key = .gt) :
    passed.filter (fun f => (cmp key f.largest.Key).isLE) = [] :=
  List.filter_eq_nil_iff.mpr fun f hf hle => Ordering.isLE_iff_ne_gt.mp hle (hpassed f hf)

/-- A call with the next key. -/
theorem At.shouldStopBefore {key' : Bytes} (h : At files start key st) (hkey' : 8 ≤ key'.length)
    (hfiles : GrandparentsAscend files) (hstart : (cmp start key).isLE)
    (hle : (cmp key key').isLE) (hsum : VersionSet.totalFileSize files < 2 ^ 63) :
    ∃ st', shouldStopBefore files maxFileSize key' st =
        some (decide (maxGrandParentOverlapBytes maxFileSize < overlapBetween files start key'), st') ∧
      At files (if maxGrandParentOverlapBytes maxFileSize < overlapBetween files start key' then key'
        else start) key' st' := by
  obtain ⟨passed, rest, rfl, hindex, hseen, hpassed, hrest, hoverlap⟩ := h
  rw [totalFileSize_append] at hsum
  have hfilter := totalFileSize_filter_le passed fun f => (cmp start f.largest.Key).isLE
  obtain ⟨more, rest', rfl, hmore, hrest', heq⟩ := passGrandparents_eq hkey' hfiles.of_append
    (by omega : 0 ≤ st.overlapbytes) (by omega)
  rw [hseen, if_pos rfl, hoverlap, ← Nat.cast_add] at heq
  have hpassed' : ∀ f ∈ passed ++ more, cmp key' f.largest.Key = .gt := by
    refine List.forall_mem_append.mpr ⟨fun f hf => ?_, hmore⟩
    by_contra hnot
    have hback := TransCmp.isLE_trans hle (Ordering.ne_gt_iff_isLE.mp hnot)
    exact Ordering.isLE_iff_ne_gt.mp hback (hpassed f hf)
  -- what has been passed now ends behind `key`, and so behind `start`
  have hall : more.filter (fun f => (cmp start f.largest.Key).isLE) = more :=
    List.filter_eq_self.mpr fun f hf =>
      TransCmp.isLE_trans hstart (hrest f (List.mem_append_left rest' hf))
  have hbetween : overlapBetween (passed ++ (more ++ rest')) start key' =
      VersionSet.totalFileSize (passed.filter fun f => (cmp start f.largest.Key).isLE) +
        VersionSet.totalFileSize more := by
    rw [← List.append_assoc, overlapBetween_eq hpassed' hrest', List.filter_append, hall,
      totalFileSize_append]
  rw [← hbetween] at heq
  have hdrop : (passed ++ (more ++ rest')).drop st.grandIndex = more ++ rest' :=
    List.drop_left' hindex.symm
  rw [Compaction.shouldStopBefore, hdrop, heq, Option.bind_eq_bind, Option.bind_some]
  dsimp only
  by_cases hstop : maxGrandParentOverlapBytes maxFileSize <
      overlapBetween (passed ++ (more ++ rest')) start key'
  · rw [if_pos (Int.ofNat_lt.mpr hstop), if_pos hstop, decide_eq_true hstop]
    refine ⟨_, rfl, passed ++ more, rest', (List.append_assoc _ _ _).symm, ?_, rfl, hpassed', hrest', ?_⟩
    · rw [List.length_append, hindex]
    · rw [filter_passed_eq_nil hpassed']
      rfl
  · rw [if_neg (fun h => hstop (Int.ofNat_lt.mp h)), if_neg hstop, decide_eq_false hstop]
    refine ⟨_, rfl, passed ++ more, rest', (List.append_assoc _ _ _).symm, ?_, rfl, hpassed', hrest', ?_⟩
    · rw [List.length_append, hindex]
    · rw [hbetween, List.filter_append, hall, totalFileSize_append]

/-- The answers to ascending keys. -/
theorem At.stopAnswers (h : At files start key st) (hfiles : GrandparentsAscend files)
    (hstart : (cmp start key).isLE) (hkeys : (key :: keys).Pairwise fun a b => (cmp a b).isLE)
    (hlong : ∀ k ∈ keys, 8 ≤ k.length) (hsum : VersionSet.totalFileSize files < 2 ^ 63) :
    stopAnswers files maxFileSize st keys =
      some (stopsFrom files (maxGrandParentOverlapBytes maxFileSize) start keys) := by
  induction keys generalizing start key st with
  | nil => rfl
  | cons key' keys ih =>
    obtain ⟨hkey', hlong⟩ := List.forall_mem_cons.mp hlong
    obtain ⟨hhead, htail⟩ := List.pairwise_cons.mp hkeys
    have hle := hhead key' List.mem_cons_self
    obtain ⟨st', hstop, hat⟩ :=
      @At.shouldStopBefore _ _ _ maxFileSize _ _ h hkey' hfiles hstart hle hsum
    rw [Compaction.stopAnswers, hstop, Option.bind_eq_bind, Option.bind_some, stopsFrom]
    dsimp only
    split
    · next hlimit =>
      rw [if_pos hlimit] at hat
      rw [ih hat ReflCmp.isLE_rfl htail hlong, decide_eq_true hlimit]
      rfl
    · next hlimit =>
      rw [if_neg hlimit] at hat
      rw [ih hat (TransCmp.isLE_trans hstart hle) htail hlong, decide_eq_false hlimit]
      rfl

/-- On ascending keys, the calls answer as if the overlap of the output were added up anew for each of
them: the first call never says to stop, and from then on a call does exactly where the grandparents
that end between the first key of the output and this one have more bytes than the limit. -/
theorem stopAnswers_eq (hfiles : GrandparentsAscend files)
    (hkeys : (key :: keys).Pairwise fun a b => (cmp a b).isLE)
    (hlong : ∀ k ∈ key :: keys, 8 ≤ k.length) (hsum : VersionSet.totalFileSize files < 2 ^ 63) :
    stopAnswers files maxFileSize {} (key :: keys) =
      some (false :: stopsFrom files (maxGrandParentOverlapBytes maxFileSize) key keys) := by
  obtain ⟨hkey, hlong⟩ := List.forall_mem_cons.mp hlong
  obtain ⟨passed, rest, rfl, hpassed, hrest, heq⟩ :=
    @passGrandparents_eq _ _ {} hkey hfiles (Int.le_refl 0) (by dsimp only; omega)
  have hat : At (passed ++ rest) key key ⟨passed.length, true, 0⟩ := by
    refine ⟨passed, rest, rfl, rfl, rfl, hpassed, hrest, ?_⟩
    rw [filter_passed_eq_nil hpassed]
    rfl
  have hfirst : shouldStopBefore (passed ++ rest) maxFileSize key {} =
      some (false, ⟨passed.length, true, 0⟩) := by
    rw [shouldStopBefore, List.drop_zero, heq]
    simp
  rw [stopAnswers, hfirst, Option.bind_eq_bind, Option.bind_some]
  dsimp only
  rw [hat.stopAnswers hfiles ReflCmp.isLE_rfl hkeys hlong hsum]
  rfl

/-- An internal key of one byte. -/
def byteKey (b : UInt8) : InternalKey := .new [b] 1 .value

/-- A file that ends with `b`, of more bytes than the limit. -/
def wideGrandparent : FileMate := ⟨7, 11, byteKey 97, byteKey 98⟩

theorem stopAnswers_eq_wide :
    stopAnswers [wideGrandparent] 1 {} [(byteKey 97).Key, (byteKey 99).Key, (byteKey 100).Key] =
      some [false, true, false] := by
  have hfiles : GrandparentsAscend [wideGrandparent] :=
    ⟨List.forall_mem_singleton.mpr (by decide), List.pairwise_singleton _ _⟩
  have hanswers := @stopAnswers_eq [wideGrandparent] (byteKey 97).Key
    [(byteKey 99).Key, (byteKey 100).Key] 1 hfiles (by decide) (by decide) (by decide)
  exact hanswers.trans (by decide)

end Compaction

end Yubindb
