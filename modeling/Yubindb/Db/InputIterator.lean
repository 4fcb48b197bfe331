import Yubindb.Db.OverlapFiles
import Yubindb.Db.TwoLevel
import Yubindb.Db.VersionLookup

/-!
# The input of a compaction

`VersionSet::MakeInputIterator` and `LevelFileNumIterator` of `src/db/version_set.h`,
`src/db/version_set.cpp`, `GetFileIterator` and `NewMergingIterator` of `src/db/iterator.cpp`. The
test for sets without files stands where one for sets with files would be right.
-/

namespace Yubindb
open Cursor Std

/-! ## The files of a level -/

/-- `LevelFileNumIterator`. -/
structure LevelFileNumIterator where
  flist : List FileMate
  index : Nat

namespace LevelFileNumIterator

/-- `LevelFileNumIterator::LevelFileNumIterator`. -/
def new (flist : List FileMate) : LevelFileNumIterator := ⟨flist, flist.length⟩

/-- What `value` writes to `value_buf_`. -/
def fileValue (f : FileMate) : Bytes := encodeFixed64 f.num ++ encodeFixed64 f.fileSize

/-- The calls. `Next` and `Prev` assert that the iterator is valid. -/
def move : Move Bytes → LevelFileNumIterator → Option LevelFileNumIterator
  | .seekToFirst, it => some { it with index := 0 }
  | .seekToLast, it =>
    some { it with index := if it.flist = [] then 0 else it.flist.length - 1 }
  | .seek target, it => some { it with index := findFile it.flist target }
  | .next, it =>
    if it.index < it.flist.length then some { it with index := it.index + 1 } else none
  | .prev, it =>
    if it.index < it.flist.length then
      some { it with index := if it.index = 0 then it.flist.length else it.index - 1 }
    else none

/-- `Seek`, with the `int` of `FindFile` in a `uint32_t`. -/
def seekInt (it : LevelFileNumIterator) (target : Bytes) : Option LevelFileNumIterator := do
  let found ← findFileInt it.flist target
  return { it with index := (found % 2 ^ 32).toNat }

def iterator : Iterator LevelFileNumIterator where
  valid it := it.index < it.flist.length
  key it := (it.flist[it.index]?).elim [] fun f => f.largest.Key
  value it := (it.flist[it.index]?).elim [] fileValue
  move := move

/-- What it goes over. -/
def filePairs (files : List FileMate) : List (Bytes × Bytes) :=
  files.map fun f => (f.largest.Key, fileValue f)

/-- The iterator is a cursor on the files, as far as `FindFile` finds what a cursor would. -/
theorem behaves_iterator {ok : Bytes → Prop} {files : List FileMate}
    (hseek : ∀ target, ok target →
      findFile files target = (filePairs files).findIdx fun e => cmp e.1 target ≠ .lt) (p : Nat) :
    Behaves cmp ok (filePairs files) iterator ⟨files, p⟩ p := by
  have hlen : (filePairs files).length = files.length := List.length_map _
  refine Behaves.of_simulation (R := fun it p => it = ⟨files, p⟩) ?_ ?_ rfl
  · rintro _ p rfl
    rw [Iter.current]
    by_cases hp : p < files.length
    · simp [iterator, filePairs, hp]
    · simp [iterator, filePairs, hp]
  · rintro _ p call rfl hlegal
    cases call with
    | seekToFirst => exact ⟨_, rfl, rfl⟩
    | seekToLast =>
      refine ⟨_, rfl, ?_⟩
      rw [Cursor.move, hlen]
      cases files <;> rfl
    | seek target => exact ⟨_, rfl, by rw [Cursor.move, ← hseek target hlegal]⟩
    | next =>
      have hp : p < files.length := hlen ▸ hlegal
      exact ⟨_, if_pos hp, rfl⟩
    | prev =>
      have hp : p < files.length := hlen ▸ hlegal
      exact ⟨_, if_pos hp, by rw [Cursor.move, hlen]⟩

/-- In 32 bits `Seek` goes where it goes without bounds. -/
theorem seekInt_eq {files : List FileMate} {key : Bytes} (hsize : files.length < 2 ^ 31)
    (hfiles : ∀ f ∈ files, 8 ≤ f.largest.Key.length) (hkey : 8 ≤ key.length) (index : ℕ) :
    seekInt ⟨files, index⟩ key = move (.seek key) ⟨files, index⟩ := by
  have hle : findFile files key ≤ files.length := findFileFrom_le files key 0 files.length
  have hindex : ((findFile files key : ℤ) % 2 ^ 32).toNat = findFile files key := by omega
  rw [seekInt, findFileInt_eq hsize hfiles hkey, Option.bind_eq_bind, Option.bind_some, hindex, move]
  rfl

end LevelFileNumIterator

/-- The iterator is at the first file that reaches the key. No file in front of it can contain the
key, and where the files do not overlap no other one can. -/
structure LevelFileNumIterator.LandsOnFirst (files : List FileMate) (key : Bytes)
    (it : LevelFileNumIterator) : Prop where
  flist : it.flist = files
  index : it.index = files.findIdx (FileMate.reaches key)
  front : ∀ {j f}, files[j]? = some f → f.CanContain key → it.index ≤ j
  only : files.Pairwise (fun f g => cmp f.largest.Key g.smallest.Key = .lt) →
    ∀ {j f}, files[j]? = some f → f.CanContain key → j = it.index

/-- `FindFile` is a lower bound, and `Seek` goes there. -/
theorem findFile_lowerBound {files : List FileMate} {key : Bytes}
    (hsize : files.length < 2 ^ 31) (hasc : LargestAscending files)
    (hfiles : ∀ f ∈ files, 8 ≤ f.largest.Key.length) (hkey : 8 ≤ key.length) :
    findFileInt files key = some (files.findIdx (FileMate.reaches key) : ℤ) ∧
      ∀ index, ∃ it, LevelFileNumIterator.seekInt ⟨files, index⟩ key = some it ∧
        LevelFileNumIterator.LandsOnFirst files key it := by
  have hfind := @findFile_eq_findIdx files key hasc
  refine ⟨by rw [findFileInt_eq hsize hfiles hkey, hfind], fun index => ?_⟩
  refine ⟨_, LevelFileNumIterator.seekInt_eq hsize hfiles hkey index, rfl, hfind, ?_, ?_⟩
  · intro j f hf hcontains
    rw [hfind]
    exact findIdx_le_of_canContain hasc hf hcontains
  · intro hapart j f hf hcontains
    rw [hfind]
    exact Nat.le_antisymm (le_findIdx_of_canContain hapart hf hcontains)
      (findIdx_le_of_canContain hasc hf hcontains)

def twoFiles : List FileMate :=
  [⟨3, 100, .new [1] 1 .value, .new [3] 2 .value⟩, ⟨4, 100, .new [5] 3 .value, .new [7] 4 .value⟩]

/-- A key between two files is looked for in the second. -/
theorem findFile_lowerBound_twoFiles :
    findFileInt twoFiles (InternalKey.new [4] 9 .value).Key = some 1 := by
  have hbound := findFile_lowerBound (show twoFiles.length < 2 ^ 31 by decide) (by decide)
    (by decide) (InternalKey.eight_le_new [4] 9 .value)
  exact hbound.1

/-! ## The iterators that are put together -/

/-- The constructors of iterators that `MakeInputIterator` uses, and the calls of what they make:
`TableCache::NewIterator`, `NewTwoLevelIterator` over a `LevelFileNumIterator` with `GetFileIterator`,
and `Merageitor::Merageitor`. -/
structure InputIterators (σ : Type) where
  iterator : Iterator σ
  newTable : Nat → Nat → σ
  newTwoLevel : LevelFileNumIterator → σ
  newMerging : List σ → σ

/-- `GetFileIterator`. -/
def getFileIterator {σ : Type} (newTable : Nat → Nat → σ) (fileValue : Bytes) : Option σ :=
  if fileValue.length ≠ 16 then none
  else some (newTable (decodeFixed64 fileValue) (decodeFixed64 (fileValue.drop 8)))

namespace InputIterators
variable {σ : Type}

/-- `NewMergingIterator`, which may return a null pointer. -/
def newMergingIterator (I : InputIterators σ) : List σ → Option σ
  | [] => none
  | [child] => some child
  | children => some (I.newMerging children)

/-- `list[num++] = child`. Behind the array nothing is defined. -/
def store (space : Nat) (list : List σ) (child : σ) : Option (List σ) :=
  if list.length < space then some (list ++ [child]) else none

/-- One turn of the outer loop, with `inputs_[i]`. -/
def addInputs (I : InputIterators σ) (space level i : Nat) (inputs : List FilePtr) (list : List σ) :
    Option (List σ) :=
  if inputs = [] then
    if level + i = 0 then
      inputs.foldlM (fun list p => store space list (I.newTable p.file.num p.file.fileSize)) list
    else store space list (I.newTwoLevel (.new (inputs.map FilePtr.file)))
  else some list

/-- `MakeInputIterator`: what it returns, where it writes inside of its array. -/
def makeInputIterator (I : InputIterators σ) (c : Compaction) : Option (Option σ) := do
  let space := if c.level.val = 0 then c.inputs0.length + 1 else 2
  let list ← I.addInputs space c.level 0 c.inputs0 []
  let list ← I.addInputs space c.level 1 c.inputs1 list
  return I.newMergingIterator list

/-- Table iterators, the two-level iterator and the merging iterator are cursors on what they stand
for. -/
structure AreCursors (I : InputIterators σ) (tables : Nat → List (Bytes × Bytes)) : Prop where
  table : ∀ num fileSize, ∃ p,
    Behaves cmp (8 ≤ ·.length) (tables num) I.iterator (I.newTable num fileSize) p
  twoLevel : ∀ s pairs blocks,
    TweLevelIterator.Represents (8 ≤ ·.length) LevelFileNumIterator.iterator I.iterator
      (getFileIterator I.newTable) s pairs blocks →
    ∃ p, Behaves cmp (8 ≤ ·.length) blocks.flatten I.iterator (I.newTwoLevel s) p
  merging : ∀ children lists, (∀ xs ∈ lists, Ascending cmp xs) →
    (lists.Pairwise fun xs ys => ∀ a ∈ xs, ∀ b ∈ ys, cmp a.1 b.1 ≠ .eq) →
    (∀ xs ∈ lists, ∀ e ∈ xs, 8 ≤ e.1.length) →
    List.Forall₂ (fun s xs => ∃ p, Behaves cmp (8 ≤ ·.length) xs I.iterator s p) children lists →
    ∃ p, Behaves cmp (8 ≤ ·.length) (Merageitor.sortedUnion lists) I.iterator
      (I.newMerging children) p

end InputIterators

/-! ## What it is for -/

/-- What the numbers, the bounds and the entries of the files keep to. -/
structure FilesHold (tables : Nat → List (Bytes × Bytes)) (files : List FileMate) : Prop where
  numbers : ∀ f ∈ files, f.num < 2 ^ 64 ∧ f.fileSize < 2 ^ 64
  ascending : ∀ f ∈ files, Ascending cmp (tables f.num)
  bounds : ∀ f ∈ files, ∀ e ∈ tables f.num,
    (cmp f.smallest.Key e.1).isLE ∧ (cmp e.1 f.largest.Key).isLE

/-- The inputs of a compaction: there are some, and those of the deeper levels lie apart. -/
structure Compaction.HasInputs (tables : Nat → List (Bytes × Bytes)) (c : Compaction) : Prop where
  nonempty : c.inputs0 ≠ [] ∨ c.inputs1 ≠ []
  hold : FilesHold tables ((c.inputs0 ++ c.inputs1).map FilePtr.file)
  apart0 : c.level.val ≠ 0 → FilesApart (c.inputs0.map FilePtr.file)
  apart1 : FilesApart (c.inputs1.map FilePtr.file)

/-- The entries of all files of the inputs. -/
def Compaction.inputEntries (tables : Nat → List (Bytes × Bytes)) (c : Compaction) :
    List (Bytes × Bytes) :=
  (c.inputs0 ++ c.inputs1).flatMap fun p => tables p.file.num

/-- `MakeInputIterator` writes inside of its array and returns an iterator that goes through the
entries of all files, each once, in the order of `cmp`. -/
def InputIterators.CoversInputs {σ : Type} (I : InputIterators σ)
    (tables : Nat → List (Bytes × Bytes)) (c : Compaction) : Prop :=
  ∃ s es, I.makeInputIterator c = some (some s) ∧ I.iterator.Yields s es ∧
    es.Perm (c.inputEntries tables) ∧ es.Pairwise fun a b => (cmp a.1 b.1).isLE

/-! ## The files of a deeper level -/

section
variable {σ : Type} {I : InputIterators σ} {tables : Nat → List (Bytes × Bytes)}
  {files : List FileMate} {f g : FileMate} {c : Compaction}

theorem FilesApart.cmp_lt (h : FilesApart files) :
    files.Pairwise fun f g => cmp f.largest.Key g.smallest.Key = .lt :=
  h.apart.imp fun hlt => Ordering.then_eq_lt.mpr (.inl hlt)

theorem FilesApart.ascending (h : FilesApart files) :
    Ascending cmp (LevelFileNumIterator.filePairs files) := by
  rw [LevelFileNumIterator.filePairs, Ascending, List.pairwise_map]
  refine h.apart.imp_of_mem fun _ hg hlt => ?_
  exact Ordering.then_eq_lt.mpr (.inl (TransCmp.lt_of_lt_of_isLE hlt (h.range _ hg)))

theorem LevelFileNumIterator.findFile_eq (h : Ascending cmp (filePairs files)) (target : Bytes) :
    findFile files target = (filePairs files).findIdx fun e => cmp e.1 target ≠ .lt := by
  have hkeys : Ascending cmp (Version.byLargest files) := by
    rw [filePairs, Ascending, List.pairwise_map] at h
    rw [Version.byLargest, Ascending, List.pairwise_map]
    exact h
  rw [Version.findFile_eq_cut hkeys, Merageitor.seek_eq_cut h, cut, cut, Version.byLargest,
    filePairs, List.countP_map, List.countP_map]
  rfl

/-- `GetFileIterator` opens the file that the value names. -/
theorem getFileIterator_fileValue (newTable : Nat → Nat → σ) (hnum : f.num < 2 ^ 64)
    (hsize : f.fileSize < 2 ^ 64) :
    getFileIterator newTable (LevelFileNumIterator.fileValue f) =
      some (newTable f.num f.fileSize) := by
  have hdrop : (LevelFileNumIterator.fileValue f).drop 8 = encodeFixed64 f.fileSize ++ [] := by
    rw [LevelFileNumIterator.fileValue, List.drop_left' (length_encodeFixed64 _), List.append_nil]
  rw [getFileIterator, if_neg (by simp [LevelFileNumIterator.fileValue]), hdrop,
    decodeFixed64_encode hsize, LevelFileNumIterator.fileValue, decodeFixed64_encode hnum]

/-- A file ends in front of the entries of the next one. -/
theorem FilesHold.lower (h : FilesHold tables files) (hapart : FilesApart files) :
    List.Forall₂ (fun pair xs => ∀ e ∈ xs, cmp pair.1 e.1 = .lt)
      (LevelFileNumIterator.filePairs files).dropLast (files.map fun f => tables f.num).tail := by
  have hlt : files.Pairwise fun f g => ∀ e ∈ tables g.num, cmp f.largest.Key e.1 = .lt :=
    hapart.cmp_lt.imp_of_mem fun _ hg hlt e he =>
      TransCmp.lt_of_lt_of_isLE hlt (h.bounds _ hg e he).1
  clear h hapart
  induction files with
  | nil => exact .nil
  | cons f files ih =>
    obtain ⟨hf, hlt⟩ := List.pairwise_cons.mp hlt
    cases files with
    | nil => exact .nil
    | cons g files => exact .cons (hf g List.mem_cons_self) (ih hlt)

/-- With the iterator over the files and `GetFileIterator` the two-level iterator has what it
needs. -/
theorem InputIterators.AreCursors.represents (hcursors : I.AreCursors tables)
    (h : FilesHold tables files) (hapart : FilesApart files) :
    TweLevelIterator.Represents (8 ≤ ·.length) LevelFileNumIterator.iterator I.iterator
      (getFileIterator I.newTable) (.new files) (LevelFileNumIterator.filePairs files)
      (files.map fun f => tables f.num) where
  index := ⟨_, LevelFileNumIterator.behaves_iterator
    (fun target _ => LevelFileNumIterator.findFile_eq hapart.ascending target) _⟩
  pairs_ascending := hapart.ascending
  block := by
    rw [LevelFileNumIterator.filePairs, List.forall₂_map_left_iff, List.forall₂_map_right_iff,
      List.forall₂_same]
    intro f hf
    obtain ⟨p, hp⟩ := hcursors.table f.num f.fileSize
    obtain ⟨hnum, hsize⟩ := h.numbers f hf
    exact ⟨_, p, getFileIterator_fileValue I.newTable hnum hsize, hp⟩
  blocks_ascending := List.forall_mem_map.mpr h.ascending
  upper := by
    rw [LevelFileNumIterator.filePairs, List.forall₂_map_left_iff, List.forall₂_map_right_iff,
      List.forall₂_same]
    exact fun f hf e he => (h.bounds f hf e he).2
  lower := h.lower hapart

/-- A two-level iterator over files that lie apart is a cursor on their entries. -/
theorem InputIterators.AreCursors.behaves_newTwoLevel (hcursors : I.AreCursors tables)
    (h : FilesHold tables files) (hapart : FilesApart files) :
    ∃ p, Behaves cmp (8 ≤ ·.length) (files.flatMap fun f => tables f.num) I.iterator
      (I.newTwoLevel (.new files)) p := by
  obtain ⟨p, hp⟩ := hcursors.twoLevel _ _ _ (hcursors.represents h hapart)
  exact ⟨p, List.flatMap_def ▸ hp⟩

/-! ## What is returned -/

namespace InputIterators

/-- What `MakeInputIterator` writes lies inside of its array, and it puts together a two-level
iterator without files for each set without files, except for `inputs_[0]` at level 0. -/
theorem makeInputIterator_eq (I : InputIterators σ) (c : Compaction) :
    I.makeInputIterator c = some (I.newMergingIterator
      ((if c.inputs0 = [] ∧ c.level.val ≠ 0 then [I.newTwoLevel (.new [])] else []) ++
        if c.inputs1 = [] then [I.newTwoLevel (.new [])] else [])) := by
  by_cases h0 : c.inputs0 = [] <;> by_cases h1 : c.inputs1 = [] <;>
    by_cases hlevel : c.level.val = 0 <;>
    simp [makeInputIterator, addInputs, store, h0, h1, hlevel]

/-- With some inputs there is at most one child. -/
theorem makeInputIterator_of_nonempty (I : InputIterators σ)
    (h : c.inputs0 ≠ [] ∨ c.inputs1 ≠ []) :
    I.makeInputIterator c = some
      (if c.inputs1 = [] ∨ c.inputs0 = [] ∧ c.level.val ≠ 0 then some (I.newTwoLevel (.new []))
      else none) := by
  rw [makeInputIterator_eq]
  by_cases h1 : c.inputs1 = []
  · have h0 : ¬ (c.inputs0 = [] ∧ c.level.val ≠ 0) := fun h0 => h.elim (· h0.1) (· h1)
    rw [if_neg h0, if_pos h1, if_pos (.inl h1)]
    rfl
  · rw [if_neg h1, List.append_nil]
    by_cases h0 : c.inputs0 = [] ∧ c.level.val ≠ 0
    · rw [if_pos h0, if_pos (.inr h0)]
      rfl
    · rw [if_neg h0, if_neg fun h => h.elim h1 h0]
      rfl

/-- A two-level iterator without files gives nothing. -/
theorem yields_newTwoLevel_nil {tables : Nat → List (Bytes × Bytes)} (hcursors : I.AreCursors tables) :
    I.iterator.Yields (I.newTwoLevel (.new [])) [] := by
  have hhold : FilesHold tables [] :=
    ⟨List.forall_mem_nil _, List.forall_mem_nil _, List.forall_mem_nil _⟩
  obtain ⟨p, hp⟩ := hcursors.behaves_newTwoLevel hhold ⟨List.forall_mem_nil _, .nil⟩
  exact hp.yields

/-- What is covered is nothing. -/
theorem CoversInputs.empty {tables : Nat → List (Bytes × Bytes)} (hcovers : I.CoversInputs tables c)
    (hcursors : I.AreCursors tables) (hinputs : c.inputs0 ≠ [] ∨ c.inputs1 ≠ []) :
    (c.inputs1 = [] ∨ c.inputs0 = [] ∧ c.level.val ≠ 0) ∧
      ∀ p ∈ c.inputs0 ++ c.inputs1, tables p.file.num = [] := by
  obtain ⟨s, es, hmake, hyields, hperm, -⟩ := hcovers
  rw [makeInputIterator_of_nonempty I hinputs] at hmake
  split at hmake
  · next hset =>
    cases hmake
    obtain rfl := hyields.unique (yields_newTwoLevel_nil hcursors)
    exact ⟨hset, List.flatMap_eq_nil_iff.mp hperm.nil_eq.symm⟩
  · cases hmake

/-- When the iterator covers the inputs. -/
theorem coversInputs_iff (I : InputIterators σ) (tables : Nat → List (Bytes × Bytes))
    (c : Compaction) (hcursors : I.AreCursors tables) (hinputs : c.inputs0 ≠ [] ∨ c.inputs1 ≠ []) :
    I.CoversInputs tables c ↔ (c.inputs1 = [] ∨ c.inputs0 = [] ∧ c.level.val ≠ 0) ∧
      ∀ p ∈ c.inputs0 ++ c.inputs1, tables p.file.num = [] := by
  refine ⟨fun hcovers => hcovers.empty hcursors hinputs, ?_⟩
  rintro ⟨hset, hempty⟩
  rw [← List.flatMap_eq_nil_iff] at hempty
  rw [CoversInputs, makeInputIterator_of_nonempty I hinputs]
  refine ⟨_, [], by rw [if_pos hset], yields_newTwoLevel_nil hcursors, ?_, .nil⟩
  rw [Compaction.inputEntries, hempty]

/-! ### Lists as iterators -/

/-- Lists with a position in the place of all these iterators. -/
def listIterators (tables : Nat → List (Bytes × Bytes)) :
    InputIterators (List (Bytes × Bytes) × Nat) where
  iterator := ofList cmp
  newTable num _ := (tables num, 0)
  newTwoLevel it := ((LevelFileNumIterator.filePairs it.flist).flatMap fun pair =>
    (getFileIterator (fun num _ => (tables num, 0)) pair.2).elim [] Prod.fst, 0)
  newMerging children := (Merageitor.sortedUnion (children.map Prod.fst), 0)

theorem fst_eq_of_behaves {s : List (Bytes × Bytes) × Nat} {xs : List (Bytes × Bytes)} {p : Nat}
    (h : Behaves cmp (8 ≤ ·.length) xs (ofList cmp) s p) : s.1 = xs := by
  have hself : Behaves cmp (8 ≤ ·.length) s.1 (ofList cmp) s s.2 := behaves_ofList s.1 s.2
  exact hself.yields.unique h.yields

theorem areCursors_listIterators (tables : Nat → List (Bytes × Bytes)) :
    (listIterators tables).AreCursors tables where
  table num _ := ⟨0, behaves_ofList _ _⟩
  twoLevel it pairs blocks h := by
    obtain ⟨p, hp⟩ := h.index
    have hself : Behaves cmp (fun _ => False) (LevelFileNumIterator.filePairs it.flist)
        LevelFileNumIterator.iterator it it.index :=
      LevelFileNumIterator.behaves_iterator (fun _ hfalse => hfalse.elim) it.index
    obtain rfl := hself.yields.unique hp.yields
    have hblocks : (LevelFileNumIterator.filePairs it.flist).map (fun pair =>
        (getFileIterator (fun num _ => (tables num, 0)) pair.2).elim [] Prod.fst) = blocks := by
      rw [← List.forall₂_eq_eq_eq, List.forall₂_map_left_iff]
      refine h.block.imp fun pair xs hblock => ?_
      obtain ⟨d, q, hd, hq⟩ := hblock
      exact hd ▸ fst_eq_of_behaves hq
    refine ⟨0, ?_⟩
    rw [← hblocks, ← List.flatMap_def]
    exact behaves_ofList _ _
  merging children lists _ _ _ h := by
    have hlists : children.map Prod.fst = lists := by
      rw [← List.forall₂_eq_eq_eq, List.forall₂_map_left_iff]
      refine h.imp fun s xs hs => ?_
      obtain ⟨p, hp⟩ := hs
      exact fst_eq_of_behaves hp
    refine ⟨0, ?_⟩
    rw [← hlists]
    exact behaves_ofList _ _

/-- A compaction of one file of level 2. -/
def oneInput : Compaction where
  level := ⟨2, by decide⟩
  maxOutputFileSize := 2 * 1024 * 1024
  inputs0 := [⟨2, 3, 100, .new [1, 0, 0, 0, 0, 0, 0, 0] 3 .value,
    .new [1, 0, 0, 0, 0, 0, 0, 0] 3 .value⟩]

/-- Without an entry in the file nothing is missed. -/
theorem coversInputs_oneInput : (listIterators fun _ => []).CoversInputs (fun _ => []) oneInput :=
  (coversInputs_iff _ _ _ (areCursors_listIterators _) (by decide)).mpr
    ⟨.inl rfl, fun _ _ => rfl⟩

/-- With one, it is. -/
theorem not_coversInputs : ¬ ∀ (σ : Type) (I : InputIterators σ)
    (tables : Nat → List (Bytes × Bytes)) (c : Compaction),
    I.AreCursors tables → c.HasInputs tables → I.CoversInputs tables c := by
  intro h
  have hcursors := areCursors_listIterators fun _ =>
    [((InternalKey.new [1, 0, 0, 0, 0, 0, 0, 0] 3 .value).Key, [7])]
  have hinputs : oneInput.HasInputs fun _ =>
      [((InternalKey.new [1, 0, 0, 0, 0, 0, 0, 0] 3 .value).Key, [7])] := by
    refine ⟨by decide, ⟨by decide, by decide, by decide⟩, by decide, by decide⟩
  have hempty := ((h _ _ _ _ hcursors hinputs).empty hcursors hinputs.nonempty).2
  exact List.cons_ne_nil _ _ (hempty _ List.mem_cons_self)

end InputIterators

end

end Yubindb
