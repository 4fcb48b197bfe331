import Mathlib.Data.List.TakeWhile
import Mathlib.Order.CompletePartialOrder
import Yubindb.Db.VersionSet
import Yubindb.Theory.OrderedInsert

/-!
# Edits in a batch and one by one

`VersionSet::Builder` keeps two sets for each level, and `SaveTo` merges them into the base. What it
saves is the base with the added files inserted one by one, less the deleted ones, so that applying a
list of edits to one builder and applying each edit to a builder of its own come to the same files.
-/

namespace Yubindb
open Std

namespace VersionEdit
variable {edit : VersionEdit} {level : Level} {n : Nat}

/-- The files that the edit adds to the level, in its order. -/
def filesAt (edit : VersionEdit) (level : Level) : List FileMate :=
  edit.newFiles.filterMap fun p => if p.1 = level then some p.2 else none

theorem mem_filesAt {f : FileMate} : f ∈ edit.filesAt level ↔ (level, f) ∈ edit.newFiles := by
  rw [filesAt, List.mem_filterMap]
  constructor
  · rintro ⟨⟨l, g⟩, hp, h⟩
    split at h
    · next heq =>
      cases heq
      cases h
      exact hp
    · cases h
  · exact fun h => ⟨_, h, if_pos rfl⟩

theorem adds_iff : edit.Adds level n ↔ ∃ f ∈ edit.filesAt level, f.num = n :=
  exists_congr fun _ => and_congr_left' mem_filesAt.symm

end VersionEdit

theorem num_ne_of_bySmallestKey {f g : FileMate} (h : f.num ≠ g.num) : bySmallestKey f g ≠ .eq :=
  fun heq => h (LawfulEqCmp.eq_of_compare (Ordering.then_eq_eq.mp heq).2)

namespace Builder
variable {b : Builder} {edit : VersionEdit} {level : Level}

/-! ## The files of one level -/

theorem keepFile_iff {deleted : Finset Nat} {f : FileMate} :
    keepFile deleted f = true ↔ f.num ∉ deleted := decide_eq_true_iff

/-- The loops of `SaveTo` insert the added files one by one and leave out the deleted ones. -/
theorem saveLevel_eq (deleted : Finset Nat) (base : List FileMate) {added : List FileMate}
    (h : added.Pairwise (bySmallestKey · · = .lt)) :
    saveLevel deleted base added =
      (insertAll bySmallestKey base added).filter (keepFile deleted) := by
  induction added generalizing base with
  | nil => rfl
  | cons a as ih =>
    obtain ⟨ha, has⟩ := List.pairwise_cons.mp h
    let above f := bySmallestKey a f = .lt
    have hsplit : insertUpper bySmallestKey a base =
        base.takeWhile (¬ above ·) ++ [a] ++ base.dropWhile (¬ above ·) := by
      rw [insertUpper, List.orderedInsert_eq_take_drop, List.append_assoc]
      rfl
    have hfront : ∀ f ∈ as, ∀ g ∈ base.takeWhile (¬ above ·) ++ [a], ¬ bySmallestKey f g = .lt := by
      intro f hf g hg hlt
      rcases List.mem_append.mp hg with hg | hg
      · have hnot := List.mem_takeWhile_imp hg
        exact of_decide_eq_true hnot (TransCmp.lt_trans (ha f hf) hlt)
      · rw [List.mem_singleton.mp hg, OrientedCmp.gt_of_lt (ha f hf)] at hlt
        cases hlt
    rw [insertAll_cons, hsplit, insertAll_front hfront, List.filter_append, List.filter_append,
      ← ih _ has]
    rfl

/-- The files that `SaveTo` collects. -/
def savedFiles (b : Builder) (level : Level) : List FileMate :=
  saveLevel (b.levels level).deletedFiles (b.base.files level) (b.levels level).addedFiles.elems

/-- The base and the added files, the deleted ones among them. -/
def heldFiles (b : Builder) (level : Level) : List FileMate :=
  insertAll bySmallestKey (b.base.files level) (b.levels level).addedFiles.elems

theorem savedFiles_eq (b : Builder) (level : Level) :
    b.savedFiles level = (b.heldFiles level).filter (keepFile (b.levels level).deletedFiles) :=
  saveLevel_eq _ _ (b.levels level).addedFiles.sorted

theorem sorted_heldFiles (h : (b.base.files level).Pairwise (bySmallestKey · · |>.isLE)) :
    (b.heldFiles level).Pairwise (bySmallestKey · · |>.isLE) := sorted_insertAll h _

theorem saveTo_eq_some {v : Version} (h : b.saveTo = some v) :
    v.files = b.savedFiles ∧ ∀ level : Level, 0 < level → NoOverlap (v.files level) := by
  have hfiles : v.files = b.savedFiles := funext (saveTo_files h)
  refine ⟨hfiles, hfiles ▸ ?_⟩
  rw [saveTo] at h
  split at h
  · next hover => exact hover
  · cases h

theorem exists_saveTo (h : ∀ level : Level, 0 < level → NoOverlap (b.savedFiles level)) :
    ∃ v, b.saveTo = some v ∧ v.files = b.savedFiles :=
  ⟨{ files := b.savedFiles }, if_pos h, rfl⟩

theorem addedFiles_addFile {levels : Level → LevelState} {fs : List (Level × FileMate)} :
    (fs.foldl addFile levels level).addedFiles = (levels level).addedFiles.insertMany
      (fs.filterMap fun p => if p.1 = level then some p.2 else none) := by
  induction fs generalizing levels with
  | nil => rfl
  | cons p fs ih =>
    obtain ⟨l, f⟩ := p
    rw [List.foldl_cons, ih]
    rcases eq_or_ne l level with rfl | hne
    · simp [addFile, SortedSet.insertMany]
    · simp [addFile, hne, hne.symm]

theorem addedFiles_apply (b : Builder) (edit : VersionEdit) (level : Level) :
    ((b.apply edit).levels level).addedFiles =
      (b.levels level).addedFiles.insertMany (edit.filesAt level) := by
  rw [apply, addedFiles_addFile, addedFiles_deleteFile]
  rfl

/-! ## New file numbers -/

/-- Each file number that the edits add to a level is new: not in the base, not among the files that
the builder has, and not added before. -/
structure FreshFiles (b : Builder) (edits : List VersionEdit) : Prop where
  base : ∀ level, ∀ f ∈ edits.flatMap (·.filesAt level), ∀ g ∈ b.base.files level, g.num ≠ f.num
  added : ∀ level,
    ((b.levels level).addedFiles.elems ++ edits.flatMap (·.filesAt level)).Pairwise (·.num ≠ ·.num)

namespace FreshFiles
variable {edits : List VersionEdit}

theorem perm_apply (h : b.FreshFiles (edit :: edits)) (level : Level) :
    ((b.apply edit).levels level).addedFiles.elems.Perm
      ((b.levels level).addedFiles.elems ++ edit.filesAt level) := by
  have hadded := h.added level
  rw [List.flatMap_cons, ← List.append_assoc] at hadded
  rw [addedFiles_apply]
  exact SortedSet.perm_insertMany
    ((List.pairwise_append.mp hadded).1.imp fun hne => num_ne_of_bySmallestKey hne)

theorem apply (h : b.FreshFiles (edit :: edits)) : (b.apply edit).FreshFiles edits where
  base level f hf := h.base level f (List.mem_append_right _ hf)
  added level := by
    have hadded := h.added level
    rw [List.flatMap_cons, ← List.append_assoc] at hadded
    exact ((h.perm_apply level).append_right _).symm.pairwise hadded fun hne => Ne.symm hne

/-- What the builder holds of a level has none of the numbers that the next edit adds. -/
theorem num_ne (h : b.FreshFiles (edit :: edits)) {f g : FileMate} (hf : f ∈ edit.filesAt level)
    (hg : g ∈ b.heldFiles level) : g.num ≠ f.num := by
  have hf : f ∈ (edit :: edits).flatMap (·.filesAt level) := List.mem_append_left _ hf
  rcases mem_insertAll.mp hg with hg | hg
  · exact h.base level f hf g hg
  · exact (List.pairwise_append.mp (h.added level)).2.2 g hg f hf

/-- The next edit is as new to the version that the builder would save. -/
theorem saved (h : b.FreshFiles (edit :: edits)) {v : Version} (hv : v.files = b.savedFiles) :
    ({ base := v } : Builder).FreshFiles [edit] where
  base level f hf g hg := by
    rw [List.flatMap_cons, List.flatMap_nil, List.append_nil] at hf
    rw [hv, savedFiles_eq] at hg
    exact h.num_ne hf (List.mem_of_mem_filter hg)
  added level := by
    have hadded := h.added level
    rw [List.flatMap_cons] at hadded
    have hfiles := (List.pairwise_append.mp (List.pairwise_append.mp hadded).2.1).1
    simpa [SortedSet.empty] using hfiles

end FreshFiles

/-! ## One edit -/

variable {edits : List VersionEdit}

/-- An edit's files are inserted into what the builder holds and has not deleted. -/
theorem savedFiles_apply_eq (hsorted : (b.base.files level).Pairwise (bySmallestKey · · |>.isLE))
    (h : b.FreshFiles (edit :: edits)) :
    (b.apply edit).savedFiles level = insertAll bySmallestKey
      ((b.heldFiles level).filter (keepFile ((b.apply edit).levels level).deletedFiles))
      (edit.filesAt level) := by
  have hdistinct : ((b.apply edit).levels level).addedFiles.elems.Pairwise
      fun f g => bySmallestKey f g ≠ .eq :=
    ((b.apply edit).levels level).addedFiles.sorted.imp fun hlt heq => by
      rw [hlt] at heq
      cases heq
  have hheld : (b.apply edit).heldFiles level =
      insertAll bySmallestKey (b.heldFiles level) (edit.filesAt level) := by
    rw [heldFiles, insertAll_perm (h.perm_apply level) hdistinct, insertAll_append]
    rfl
  have hkeep : ∀ f ∈ edit.filesAt level,
      keepFile ((b.apply edit).levels level).deletedFiles f = true := fun f hf =>
    keepFile_iff.mpr fun hdel =>
      (mem_deletedFiles_apply.mp hdel).2 (VersionEdit.adds_iff.mpr ⟨f, hf, rfl⟩)
  rw [savedFiles_eq, hheld, filter_insertAll hkeep (sorted_heldFiles hsorted)]

/-- Applying one more edit to the builder saves what applying it to the saved version does. -/
theorem savedFiles_apply {v : Version}
    (hsorted : (b.base.files level).Pairwise (bySmallestKey · · |>.isLE))
    (h : b.FreshFiles (edit :: edits)) (hv : v.files = b.savedFiles) :
    (b.apply edit).savedFiles level = (({ base := v } : Builder).apply edit).savedFiles level := by
  have hvfiles : ({ base := v } : Builder).heldFiles level =
      (b.heldFiles level).filter (keepFile (b.levels level).deletedFiles) :=
    (congrFun hv level).trans (savedFiles_eq b level)
  have hvsorted : (v.files level).Pairwise (bySmallestKey · · |>.isLE) := by
    rw [hv, savedFiles_eq]
    exact (sorted_heldFiles hsorted).filter _
  rw [savedFiles_apply_eq hsorted h, savedFiles_apply_eq hvsorted (h.saved hv), hvfiles,
    List.filter_filter]
  congr 1
  refine List.filter_congr fun f hf => ?_
  -- The edit adds no number that the builder holds, so that it only deletes from these files.
  have hnot : ¬ edit.Adds level f.num := fun hadd =>
    let ⟨g, hg, hnum⟩ := VersionEdit.adds_iff.mp hadd
    h.num_ne hg hf hnum.symm
  rw [Bool.eq_iff_iff, Bool.and_eq_true, keepFile_iff, keepFile_iff, keepFile_iff,
    mem_deletedFiles_apply, mem_deletedFiles_apply]
  simp [hnot]
  tauto

/-! ## The files under an edit -/

end Builder

instance (edit : VersionEdit) (level : Level) (n : Nat) : Decidable (edit.Deletes level n) :=
  inferInstanceAs (Decidable (_ ∈ _))

instance (edit : VersionEdit) (level : Level) (n : Nat) : Decidable (edit.Adds level n) :=
  decidable_of_iff _ VersionEdit.adds_iff.symm

/-- The files of the base that the edit leaves at the level, and those that it adds. -/
def Version.under (base : Version) (edit : VersionEdit) (level : Level) : List FileMate :=
  ((base.files level).filter fun f => edit.Deletes level f.num → edit.Adds level f.num) ++
    ((SortedSet.empty : FileSet).insertMany (edit.filesAt level)).elems

namespace Builder

theorem perm_under (base : Version) (edit : VersionEdit) (level : Level) :
    ((({ base } : Builder).apply edit).savedFiles level).Perm (base.under edit level) := by
  let b := ({ base } : Builder).apply edit
  have hkeep (f : FileMate) : keepFile (b.levels level).deletedFiles f = true ↔
      (edit.Deletes level f.num → edit.Adds level f.num) := by
    rw [keepFile_iff, mem_deletedFiles_apply]
    simp
  have hbase : (base.files level).filter (keepFile (b.levels level).deletedFiles) =
      (base.files level).filter fun f => edit.Deletes level f.num → edit.Adds level f.num :=
    List.filter_congr fun f _ => Bool.eq_iff_iff.mpr ((hkeep f).trans decide_eq_true_iff.symm)
  have hadded : (b.levels level).addedFiles.elems.filter (keepFile (b.levels level).deletedFiles) =
      ((SortedSet.empty : FileSet).insertMany (edit.filesAt level)).elems := by
    have hset := addedFiles_apply ({ base } : Builder) edit level
    refine (List.filter_eq_self.mpr fun f hf => (hkeep f).mpr fun _ => ?_).trans (congrArg _ hset)
    have hf : f ∈ (SortedSet.empty : FileSet).insertMany (edit.filesAt level) := by
      rw [← show (({ base } : Builder).levels level).addedFiles = SortedSet.empty from rfl, ← hset]
      exact hf
    exact VersionEdit.adds_iff.mpr ⟨f, (SortedSet.mem_insertMany hf).resolve_left
      (SortedSet.not_mem_empty f), rfl⟩
  rw [savedFiles_eq, Version.under, ← hbase, ← hadded, ← List.filter_append]
  exact (perm_insertAll _ _).filter _

/-! ## A list of edits -/

/-- A fresh builder for each edit, as `LogAndApply` has it; nothing when one of them aborts. -/
def saveEach : List VersionEdit → Version → Option Version
  | [], base => some base
  | edit :: edits, base => (({ base } : Builder).apply edit).saveTo.bind (saveEach edits)

/-- One builder for all edits, as `Recover` has it. -/
def saveBatch (edits : List VersionEdit) (base : Version) : Option Version :=
  (edits.foldl apply ({ base } : Builder)).saveTo

theorem savedFiles_foldl {edits : List VersionEdit} {b : Builder} {v w : Version}
    (hsorted : ∀ level, (b.base.files level).Pairwise (bySmallestKey · · |>.isLE))
    (h : b.FreshFiles edits) (hv : v.files = b.savedFiles) (hw : saveEach edits v = some w) :
    w.files = (edits.foldl apply b).savedFiles := by
  induction edits generalizing b v with
  | nil =>
    cases hw
    exact hv
  | cons edit edits ih =>
    obtain ⟨u, hu, hw⟩ := Option.bind_eq_some_iff.mp hw
    have hnext : u.files = (b.apply edit).savedFiles := by
      rw [(saveTo_eq_some hu).1]
      exact funext fun level => (savedFiles_apply (hsorted level) h hv).symm
    exact ih (b := b.apply edit) hsorted h.apply hnext hw

theorem noOverlap_of_saveEach {edits : List VersionEdit} {v w : Version}
    (h : edits ≠ [] ∨ ∀ level : Level, 0 < level → NoOverlap (v.files level))
    (hw : saveEach edits v = some w) (level : Level) (hlevel : 0 < level) :
    NoOverlap (w.files level) := by
  induction edits generalizing v with
  | nil =>
    cases hw
    exact (h.resolve_left fun hne => hne rfl) level hlevel
  | cons edit edits ih =>
    obtain ⟨u, hu, hw⟩ := Option.bind_eq_some_iff.mp hw
    exact ih (.inr (saveTo_eq_some hu).2) hw

end Builder

/-! ## A saved version -/

/-- The levels are strictly sorted by `(smallest, number)`. -/
def Version.StrictlySorted (v : Version) : Prop :=
  ∀ level, (v.files level).Pairwise (bySmallestKey · · = .lt)

/-- The keys from the smallest to the largest of a table. -/
def FileMate.range (f : FileMate) : Set InternalKey :=
  { k | (InternalKey.cmp f.smallest k).isLE ∧ (InternalKey.cmp k f.largest).isLE }

theorem FileMate.disjoint_range {f g : FileMate} (h : InternalKey.cmp f.largest g.smallest = .lt) :
    Disjoint f.range g.range := by
  refine Set.disjoint_left.mpr fun k ⟨_, hf⟩ ⟨hg, _⟩ => ?_
  have hlt := TransCmp.lt_of_lt_of_isLE (TransCmp.lt_of_isLE_of_lt hf h) hg
  have hself : InternalKey.cmp k k = .eq := ReflCmp.compare_self
  exact nomatch hlt.symm.trans hself

namespace Builder
variable {b : Builder} {v : Version} {level : Level}

/-- No number of an added file occurs in the base at its level or twice among the additions. -/
structure NewNumbers (b : Builder) : Prop where
  base : ∀ level, ∀ f ∈ (b.levels level).addedFiles, ¬ b.base.Has level f.num
  once : ∀ level, (b.levels level).addedFiles.elems.Pairwise (·.num ≠ ·.num)

/-- The file is in the base or added, and its number is not deleted. -/
def Saves (b : Builder) (level : Level) (f : FileMate) : Prop :=
  (f ∈ b.base.files level ∨ f ∈ (b.levels level).addedFiles) ∧
    f.num ∉ (b.levels level).deletedFiles

instance (b : Builder) (level : Level) (f : FileMate) : Decidable (b.Saves level f) :=
  have : Decidable (f ∈ (b.levels level).addedFiles) :=
    inferInstanceAs (Decidable (f ∈ (b.levels level).addedFiles.elems))
  inferInstanceAs (Decidable (_ ∧ _))

theorem mem_savedFiles {f : FileMate} : f ∈ b.savedFiles level ↔ b.Saves level f :=
  mem_saveLevel.trans and_comm

/-- The merge of two strictly sorted lists. -/
theorem strictlySorted_savedFiles (hsorted : b.base.StrictlySorted) (hnew : b.NewNumbers)
    (level : Level) : (b.savedFiles level).Pairwise (bySmallestKey · · = .lt) := by
  have hlt {l : List FileMate} (h : l.Pairwise (bySmallestKey · · = .lt)) :
      l.Pairwise fun f g => bySmallestKey f g ≠ .eq :=
    h.imp fun hlt heq => by
      rw [hlt] at heq
      cases heq
  have hapart : (b.base.files level ++ (b.levels level).addedFiles.elems).Pairwise
      fun f g => bySmallestKey f g ≠ .eq := by
    refine List.pairwise_append.mpr ⟨hlt (hsorted level), hlt (b.levels level).addedFiles.sorted,
      fun f hf g hg => num_ne_of_bySmallestKey fun hnum => hnew.base level g hg ⟨f, hf, hnum⟩⟩
  rw [savedFiles_eq]
  exact (strictlySorted_insertAll ((hsorted level).imp Ordering.isLE_of_eq_lt) hapart).filter _

/-- Behind a file, no other file of the level begins before it ends, and not only the next one. -/
theorem NoOverlap.pairwise {files : List FileMate} (hno : NoOverlap files)
    (hkeys : ∀ f ∈ files, (InternalKey.cmp f.smallest f.largest).isLE) :
    files.Pairwise fun f g => InternalKey.cmp f.largest g.smallest = .lt := by
  induction files with
  | nil => exact .nil
  | cons f fs ih =>
    cases fs with
    | nil => exact List.pairwise_singleton _ _
    | cons g gs =>
      obtain ⟨hfg, htail⟩ := List.isChain_cons_cons.mp hno
      have hfs := ih htail fun h hh => hkeys h (List.mem_cons_of_mem _ hh)
      refine .cons (fun h hh => ?_) hfs
      rcases List.mem_cons.mp hh with rfl | hh
      · exact hfg
      · have hg := hkeys g (List.mem_cons_of_mem _ List.mem_cons_self)
        exact TransCmp.lt_trans (TransCmp.lt_of_lt_of_isLE hfg hg)
          ((List.pairwise_cons.mp hfs).1 h hh)

/-- `SaveTo` computes the sorted set of what the base and the additions hold and the deletions leave,
and the tables of a deeper level have nothing in common. -/
theorem saveTo_sorted (hsorted : b.base.StrictlySorted) (hnew : b.NewNumbers)
    (h : b.saveTo = some v) :
    v.StrictlySorted ∧
      (∀ level f, (v.files level).count f = if b.Saves level f then 1 else 0) ∧
      ((∀ level, ∀ f ∈ v.files level, (InternalKey.cmp f.smallest f.largest).isLE) →
        ∀ level : Level, 0 < level →
          (v.files level).Pairwise fun f g => Disjoint f.range g.range) := by
  obtain ⟨hfiles, hno⟩ := saveTo_eq_some h
  have hstrict : v.StrictlySorted := fun level => hfiles ▸ strictlySorted_savedFiles hsorted hnew level
  refine ⟨hstrict, fun level f => ?_, fun hkeys level hlevel => ?_⟩
  · have hnodup : (v.files level).Nodup := by
      refine (hstrict level).imp fun {f g} hlt => ?_
      rintro rfl
      have hself : bySmallestKey f f = .eq := ReflCmp.compare_self
      exact nomatch hlt.symm.trans hself
    rw [hnodup.count]
    exact if_congr (hfiles ▸ mem_savedFiles) rfl rfl
  · exact ((hno level hlevel).pairwise (hkeys level)).imp FileMate.disjoint_range

/-- One table. -/
def oneTable : Version where
  files := Function.update (fun _ => []) 1 [⟨5, 100, .new [107] 1 .value, .new [108] 2 .value⟩]

/-- A table in front of it. -/
def addsInFront : Builder :=
  ({ base := oneTable } : Builder).apply
    (({} : VersionEdit).addFile 1 ⟨6, 100, .new [97] 3 .value, .new [98] 4 .value⟩)

theorem saveTo_sorted_addsInFront :
    ∃ v, addsInFront.saveTo = some v ∧ v.StrictlySorted ∧
      (∀ level f, (v.files level).count f = if addsInFront.Saves level f then 1 else 0) ∧
      ((∀ level, ∀ f ∈ v.files level, (InternalKey.cmp f.smallest f.largest).isLE) →
        ∀ level : Level, 0 < level →
          (v.files level).Pairwise fun f g => Disjoint f.range g.range) := by
  have hsome : addsInFront.saveTo.isSome := by decide +kernel
  obtain ⟨v, hv⟩ := Option.isSome_iff_exists.mp hsome
  have hsorted : addsInFront.base.StrictlySorted := by unfold Version.StrictlySorted; decide +kernel
  have hbase : ∀ level, ∀ f ∈ (addsInFront.levels level).addedFiles.elems,
      ¬ ∃ g ∈ addsInFront.base.files level, g.num = f.num := by decide +kernel
  exact ⟨v, hv, saveTo_sorted hsorted ⟨hbase, by decide +kernel⟩ hv⟩

end Builder

/-! ## Batches -/

/-- The levels are sorted by `(smallest, number)`. -/
def Version.Sorted (v : Version) : Prop :=
  ∀ level, (v.files level).Pairwise (bySmallestKey · · |>.isLE)

/-- Each added file number occurs at its level neither in the base nor in the additions before it. -/
structure FreshNumbers (base : Version) (edits : List VersionEdit) : Prop where
  base : ∀ level, ∀ f ∈ edits.flatMap (·.filesAt level), ¬ base.Has level f.num
  once : ∀ level, (edits.flatMap (·.filesAt level)).Pairwise (·.num ≠ ·.num)

/-- One builder for all edits saves what a builder for each of them does, when there is an edit or
nothing to abort on. -/
theorem saveBatch_of_saveEach {base v : Version} {edits : List VersionEdit} (hsorted : base.Sorted)
    (hfresh : FreshNumbers base edits)
    (hne : edits ≠ [] ∨ ∀ level : Level, 0 < level → Builder.NoOverlap (base.files level))
    (h : Builder.saveEach edits base = some v) :
    ∃ w, Builder.saveBatch edits base = some w ∧ w.files = v.files := by
  let b : Builder := { base }
  have hb : base.files = b.savedFiles := by
    funext level
    exact (List.filter_eq_self.mpr fun f _ => Builder.keepFile_iff.mpr (Finset.notMem_empty _)).symm
  have hfreshFiles : b.FreshFiles edits :=
    ⟨fun level f hf g hg hnum => hfresh.base level f hf ⟨g, hg, hnum⟩, fun level => hfresh.once level⟩
  have hv := Builder.savedFiles_foldl (b := b) hsorted hfreshFiles hb h
  obtain ⟨w, hw, hfiles⟩ := Builder.exists_saveTo (b := edits.foldl Builder.apply b)
    fun level hlevel => hv ▸ Builder.noOverlap_of_saveEach hne h level hlevel
  exact ⟨w, hw, hfiles.trans hv.symm⟩

/-- Two tables, one for each of two edits. -/
def twoTables : List VersionEdit :=
  [({} : VersionEdit).addFile 1 ⟨5, 100, .new [107] 1 .value, .new [108] 2 .value⟩,
    ({} : VersionEdit).addFile 1 ⟨6, 100, .new [97] 3 .value, .new [98] 4 .value⟩]

theorem freshNumbers_twoTables : FreshNumbers {} twoTables where
  base level f _ := fun ⟨_, hg, _⟩ => List.not_mem_nil hg
  once := by decide

theorem saveBatch_of_saveEach_twoTables :
    ∃ v w, Builder.saveEach twoTables {} = some v ∧ Builder.saveBatch twoTables {} = some w ∧
      w.files = v.files := by
  have hsome : (Builder.saveEach twoTables {}).isSome := by decide +kernel
  obtain ⟨v, hv⟩ := Option.isSome_iff_exists.mp hsome
  obtain ⟨w, hw, hfiles⟩ := saveBatch_of_saveEach (fun _ => List.Pairwise.nil)
    freshNumbers_twoTables (.inl (List.cons_ne_nil _ _)) hv
  exact ⟨v, w, hv, hw, hfiles⟩

/-- A level that is sorted and overlaps. -/
def overlapping : Version where
  files := Function.update (fun _ => []) 1
    [⟨5, 100, .new [97] 1 .value, .new [108] 2 .value⟩,
      ⟨6, 100, .new [107] 3 .value, .new [109] 4 .value⟩]

/-- No edit, no builder, and nothing that could abort before the one that has no edits either. -/
theorem not_saveBatch_of_saveEach :
    ¬ ∀ (base v : Version) (edits : List VersionEdit), base.Sorted → FreshNumbers base edits →
      Builder.saveEach edits base = some v →
        ∃ w, Builder.saveBatch edits base = some w ∧ w.files = v.files := by
  intro h
  have hnone : Builder.saveBatch [] overlapping = none := by decide +kernel
  obtain ⟨w, hw, -⟩ := h overlapping overlapping [] (by unfold Version.Sorted; decide +kernel)
    ⟨fun _ _ hf => absurd hf List.not_mem_nil, fun _ => .nil⟩ rfl
  rw [hnone] at hw
  cases hw

end Yubindb
