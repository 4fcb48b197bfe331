import Yubindb.Db.OverlapFiles

/-!
# The base level for a key

`Compaction::IsBaseLevelForKey` of `src/db/version_set.cpp`. Every level below that of the outputs has
a cursor, which moves over the files that end in front of the key and never back. It compares user
keys with `cmp`, so the cursors go wrong where that is not the order of the bytes.
-/

namespace Yubindb
open Std

/-! ## The calls -/

/-- `level_ptrs` of a compaction. -/
abbrev LevelPtrs := Level → Nat

namespace Compaction

/-- `level_ptrs` behind the constructor. -/
def newLevelPtrs : LevelPtrs := fun _ => 0

/-- The `while` over the files of a level from its cursor on: the cursor behind it, and whether the
function returns `false`. -/
def passFiles (userKey : Bytes) : Nat → List FileMate → Option (Nat × Bool)
  | ptr, [] => some (ptr, false)
  | ptr, f :: fs => do
    if (← viewCmp userKey f.largest.extractUserKey) ≠ .gt then
      return (ptr, (← viewCmp userKey f.smallest.extractUserKey) ≠ .lt)
    passFiles userKey (ptr + 1) fs

/-- The loop over these levels. -/
def baseLevelFor (v : Version) (userKey : Bytes) :
    List Level → LevelPtrs → Option (Bool × LevelPtrs)
  | [], ptrs => some (true, ptrs)
  | lvl :: lvls, ptrs => do
    let (ptr, found) ← passFiles userKey (ptrs lvl) ((v.files lvl).drop (ptrs lvl))
    let ptrs := Function.update ptrs lvl ptr
    if found then return (false, ptrs)
    baseLevelFor v userKey lvls ptrs

/-- The levels from `level_ + 2` on. -/
def deeperLevels (level : InputLevel) : List Level :=
  (List.finRange kNumLevels).filter fun lvl => level.val + 2 ≤ lvl.val

/-- `IsBaseLevelForKey` of a compaction of the level with that input version: what it returns, and
`level_ptrs` behind it. -/
def isBaseLevelForKey (v : Version) (level : InputLevel) (ptrs : LevelPtrs) (userKey : Bytes) :
    Option (Bool × LevelPtrs) :=
  baseLevelFor v userKey (deeperLevels level) ptrs

/-! ## What they are for -/

/-- The key is in no file of the levels from `level_ + 2` on. -/
def InNoDeeperFile (v : Version) (level : InputLevel) (userKey : Bytes) : Prop :=
  ∀ lvl : Level, level.val + 2 ≤ lvl.val → ∀ f ∈ v.files lvl, ¬ f.Meets (userKey, userKey)

/-- Each of the calls returns, and `true` exactly when its key is in no such file. -/
def AnswersExactly (v : Version) (level : InputLevel) : LevelPtrs → List Bytes → Prop
  | _, [] => True
  | ptrs, userKey :: userKeys => ∃ answer ptrs',
    isBaseLevelForKey v level ptrs userKey = some (answer, ptrs') ∧
      (answer = true ↔ InNoDeeperFile v level userKey) ∧ AnswersExactly v level ptrs' userKeys

/-! ## The condition -/

/-- The comparisons with these files, up to the first that does not end in front of the key, put the
key where its bytes do. -/
def PassesRightly (userKey : Bytes) : List FileMate → Prop
  | [] => True
  | f :: fs =>
    (compare userKey f.largest.extractUserKey = .gt →
      viewCmp userKey f.largest.extractUserKey = some .gt ∧ PassesRightly userKey fs) ∧
    (compare userKey f.largest.extractUserKey ≠ .gt →
      (∃ order ∈ viewCmp userKey f.largest.extractUserKey, order ≠ .gt) ∧
        ∃ order ∈ viewCmp userKey f.smallest.extractUserKey,
          order = .lt ↔ compare userKey f.smallest.extractUserKey = .lt)

instance decidablePassesRightly (userKey : Bytes) :
    (files : List FileMate) → Decidable (PassesRightly userKey files)
  | [] => inferInstanceAs (Decidable True)
  | _ :: fs =>
    have := decidablePassesRightly userKey fs
    inferInstanceAs (Decidable ((_ → _) ∧ (_ → _)))

/-- They do so in these levels, up to the first that has the key in one of its files. -/
def ComparesRightly (v : Version) (userKey : Bytes) (ptrs : LevelPtrs) : List Level → Prop
  | [] => True
  | lvl :: lvls => PassesRightly userKey ((v.files lvl).drop (ptrs lvl)) ∧
    ((∀ f ∈ v.files lvl, ¬ f.Meets (userKey, userKey)) → ComparesRightly v userKey ptrs lvls)

instance decidableComparesRightly (v : Version) (userKey : Bytes) (ptrs : LevelPtrs) :
    (lvls : List Level) → Decidable (ComparesRightly v userKey ptrs lvls)
  | [] => inferInstanceAs (Decidable True)
  | _ :: lvls =>
    have := decidableComparesRightly v userKey ptrs lvls
    inferInstanceAs (Decidable (_ ∧ (_ → _)))

/-- They do so in each of the calls. -/
def RunsRightly (v : Version) (level : InputLevel) : LevelPtrs → List Bytes → Prop
  | _, [] => True
  | ptrs, userKey :: userKeys => ComparesRightly v userKey ptrs (deeperLevels level) ∧
    ∀ next ∈ isBaseLevelForKey v level ptrs userKey, RunsRightly v level next.2 userKeys

instance decidableRunsRightly (v : Version) (level : InputLevel) :
    (ptrs : LevelPtrs) → (userKeys : List Bytes) → Decidable (RunsRightly v level ptrs userKeys)
  | _, [] => inferInstanceAs (Decidable True)
  | _, _ :: userKeys =>
    have := fun ptrs => decidableRunsRightly v level ptrs userKeys
    inferInstanceAs (Decidable (_ ∧ ∀ next ∈ _, _))

end Compaction

/-! ## One level -/

section
variable {userKey userKey' : Bytes} {files : List FileMate} {f : FileMate}

theorem FilesApart.of_cons (h : FilesApart (f :: files)) : FilesApart files :=
  ⟨fun g hg => h.range g (List.mem_cons_of_mem f hg), (List.pairwise_cons.mp h.apart).2⟩

theorem FilesApart.drop (h : FilesApart files) (n : Nat) : FilesApart (files.drop n) :=
  ⟨fun f hf => h.range f (List.mem_of_mem_drop hf), h.apart.drop⟩

/-- The file ends in front of the key. -/
def FileMate.EndsBefore (userKey : Bytes) (f : FileMate) : Prop :=
  compare userKey f.largest.extractUserKey = .gt

instance (userKey : Bytes) (f : FileMate) : Decidable (f.EndsBefore userKey) :=
  inferInstanceAs (Decidable (_ = _))

theorem FileMate.EndsBefore.not_meets (h : f.EndsBefore userKey) :
    ¬ f.Meets (userKey, userKey) := by
  rintro ⟨hle, -⟩
  exact Ordering.isLE_iff_ne_gt.mp hle h

theorem FileMate.EndsBefore.of_isLE (h : f.EndsBefore userKey)
    (hle : (compare userKey userKey').isLE) : f.EndsBefore userKey' :=
  TransCmp.gt_of_isGE_of_gt (OrientedCmp.isGE_of_isLE hle) h

/-- Of files that lie apart, only the first that does not end in front of the key can have it. -/
theorem FilesApart.exists_meets_iff (h : FilesApart (f :: files)) (hf : ¬ f.EndsBefore userKey) :
    (∃ g ∈ f :: files, g.Meets (userKey, userKey)) ↔
      compare userKey f.smallest.extractUserKey ≠ .lt := by
  have hend : (compare userKey f.largest.extractUserKey).isLE := Ordering.ne_gt_iff_isLE.mp hf
  constructor
  · rintro ⟨g, hg, -, hstart⟩ hlt
    rcases List.mem_cons.mp hg with rfl | hg
    · exact Ordering.isLE_iff_ne_gt.mp hstart (OrientedCmp.gt_of_lt hlt)
    · have hapart := (List.pairwise_cons.mp h.apart).1 g hg
      have hgt := TransCmp.lt_of_isLE_of_lt hend hapart
      exact Ordering.isLE_iff_ne_gt.mp hstart (OrientedCmp.gt_of_lt hgt)
  · intro hstart
    refine ⟨f, List.mem_cons_self, hend, ?_⟩
    exact OrientedCmp.isLE_of_isGE (Ordering.ne_lt_iff_isGE.mp hstart)

namespace Compaction

/-- The cursor comes to lie behind files that end in front of the key, and the level is left with
the right answer. -/
theorem passFiles_of_rightly (hapart : FilesApart files) (h : PassesRightly userKey files)
    (ptr : Nat) :
    ∃ n found, passFiles userKey ptr files = some (ptr + n, found) ∧
      (∀ f ∈ files.take n, f.EndsBefore userKey) ∧
      (found = true ↔ ∃ f ∈ files, f.Meets (userKey, userKey)) := by
  induction files generalizing ptr with
  | nil => exact ⟨0, false, rfl, List.forall_mem_nil _, by simp⟩
  | cons f files ih =>
    by_cases hend : f.EndsBefore userKey
    · obtain ⟨hcmp, h⟩ := h.1 hend
      obtain ⟨n, found, hpass, hbefore, hfound⟩ := ih hapart.of_cons h (ptr + 1)
      refine ⟨n + 1, found, ?_, ?_, ?_⟩
      · rw [passFiles, hcmp]
        simpa [Nat.add_assoc, Nat.add_comm 1] using hpass
      · rw [List.take_succ_cons]
        exact List.forall_mem_cons.mpr ⟨hend, hbefore⟩
      · rw [hfound, List.exists_mem_cons_iff]
        exact ⟨.inr, fun h => h.resolve_left hend.not_meets⟩
    · obtain ⟨⟨order, hcmp, hle⟩, order', hcmp', hstart⟩ := h.2 hend
      rw [Option.mem_def] at hcmp hcmp'
      refine ⟨0, decide (order' ≠ .lt), ?_, List.forall_mem_nil _, ?_⟩
      · rw [passFiles, hcmp]
        simp [hle, hcmp']
      · rw [decide_eq_true_iff, hapart.exists_meets_iff hend, Ne, hstart]

/-! ## The cursors -/

variable {v : Version} {level : InputLevel} {ptrs ptrs' : LevelPtrs} {lvls : List Level}

/-- The files that the cursors have passed end in front of the key. -/
def Passed (v : Version) (userKey : Bytes) (ptrs : LevelPtrs) : Prop :=
  ∀ lvl, ∀ f ∈ (v.files lvl).take (ptrs lvl), f.EndsBefore userKey

theorem passed_newLevelPtrs : Passed v userKey newLevelPtrs := fun _ _ hf => by
  rw [newLevelPtrs, List.take_zero] at hf
  cases hf

/-- Later keys leave them there. -/
theorem Passed.of_isLE (h : Passed v userKey ptrs) (hle : (compare userKey userKey').isLE) :
    Passed v userKey' ptrs :=
  fun lvl f hf => (h lvl f hf).of_isLE hle

theorem Passed.update {lvl : Level} {n : Nat} (h : Passed v userKey ptrs)
    (hn : ∀ f ∈ ((v.files lvl).drop (ptrs lvl)).take n, f.EndsBefore userKey) :
    Passed v userKey (Function.update ptrs lvl (ptrs lvl + n)) := by
  intro lvl' f hf
  by_cases heq : lvl' = lvl
  · subst heq
    rw [Function.update_self, List.take_add, List.mem_append] at hf
    exact hf.elim (h lvl' f) (hn f)
  · rw [Function.update_of_ne heq] at hf
    exact h lvl' f hf

/-- What a cursor has passed does not have the key. -/
theorem Passed.exists_meets_iff (h : Passed v userKey ptrs) (lvl : Level) :
    (∃ f ∈ (v.files lvl).drop (ptrs lvl), f.Meets (userKey, userKey)) ↔
      ∃ f ∈ v.files lvl, f.Meets (userKey, userKey) := by
  constructor
  · rintro ⟨f, hf, hmeets⟩
    exact ⟨f, List.mem_of_mem_drop hf, hmeets⟩
  · rintro ⟨f, hf, hmeets⟩
    rw [← List.take_append_drop (ptrs lvl) (v.files lvl), List.mem_append] at hf
    exact ⟨f, hf.resolve_left fun hf => (h lvl f hf).not_meets hmeets, hmeets⟩

theorem comparesRightly_congr (h : ∀ lvl ∈ lvls, ptrs lvl = ptrs' lvl) :
    ComparesRightly v userKey ptrs lvls ↔ ComparesRightly v userKey ptrs' lvls := by
  induction lvls with
  | nil => exact Iff.rfl
  | cons lvl lvls ih =>
    obtain ⟨hlvl, hlvls⟩ := List.forall_mem_cons.mp h
    rw [ComparesRightly, ComparesRightly, hlvl, ih hlvls]

/-- The loop over the levels answers rightly, and the cursors pass only files that end in front of
the key. -/
theorem baseLevelFor_of_rightly (hapart : ∀ lvl ∈ lvls, FilesApart (v.files lvl))
    (hnodup : lvls.Nodup) (hpassed : Passed v userKey ptrs)
    (h : ComparesRightly v userKey ptrs lvls) :
    ∃ answer ptrs', baseLevelFor v userKey lvls ptrs = some (answer, ptrs') ∧
      Passed v userKey ptrs' ∧
      (answer = true ↔ ∀ lvl ∈ lvls, ∀ f ∈ v.files lvl, ¬ f.Meets (userKey, userKey)) := by
  induction lvls generalizing ptrs with
  | nil => exact ⟨true, ptrs, rfl, hpassed, iff_of_true rfl (List.forall_mem_nil _)⟩
  | cons lvl lvls ih =>
    obtain ⟨hlvl, hlvls⟩ := List.forall_mem_cons.mp hapart
    obtain ⟨hnew, hnodup⟩ := List.nodup_cons.mp hnodup
    obtain ⟨hpass, hrest⟩ := h
    obtain ⟨n, found, heq, hbefore, hfound⟩ :=
      passFiles_of_rightly (hlvl.drop (ptrs lvl)) hpass (ptrs lvl)
    have hpassed' := hpassed.update hbefore
    rw [hpassed.exists_meets_iff] at hfound
    rw [baseLevelFor, heq, Option.bind_eq_bind, Option.bind_some]
    cases found with
    | true =>
      obtain ⟨f, hf, hmeets⟩ := hfound.mp rfl
      refine ⟨false, _, rfl, hpassed', iff_of_false Bool.false_ne_true fun hnone => ?_⟩
      exact hnone lvl List.mem_cons_self f hf hmeets
    | false =>
      have hnone : ∀ f ∈ v.files lvl, ¬ f.Meets (userKey, userKey) := fun f hf hmeets =>
        Bool.false_ne_true (hfound.mpr ⟨f, hf, hmeets⟩)
      have hsame : ∀ lvl' ∈ lvls, ptrs lvl' = Function.update ptrs lvl (ptrs lvl + n) lvl' :=
        fun lvl' hmem => (Function.update_of_ne (ne_of_mem_of_not_mem hmem hnew) _ _).symm
      obtain ⟨answer, ptrs', hrun, hpassed'', hanswer⟩ :=
        ih hlvls hnodup hpassed' ((comparesRightly_congr hsame).mp (hrest hnone))
      refine ⟨answer, ptrs', hrun, hpassed'', hanswer.trans ?_⟩
      rw [List.forall_mem_cons]
      exact (and_iff_right hnone).symm

/-! ## The calls of a compaction -/

theorem mem_deeperLevels {lvl : Level} : lvl ∈ deeperLevels level ↔ level.val + 2 ≤ lvl.val := by
  simp [deeperLevels]

theorem nodup_deeperLevels (level : InputLevel) : (deeperLevels level).Nodup :=
  (List.nodup_finRange _).filter _

/-- One call. -/
theorem isBaseLevelForKey_of_rightly
    (hapart : ∀ lvl : Level, level.val + 2 ≤ lvl.val → FilesApart (v.files lvl))
    (hpassed : Passed v userKey ptrs) (h : ComparesRightly v userKey ptrs (deeperLevels level)) :
    ∃ answer ptrs', isBaseLevelForKey v level ptrs userKey = some (answer, ptrs') ∧
      Passed v userKey ptrs' ∧ (answer = true ↔ InNoDeeperFile v level userKey) := by
  obtain ⟨answer, ptrs', hrun, hpassed', hanswer⟩ := baseLevelFor_of_rightly
    (fun lvl hlvl => hapart lvl (mem_deeperLevels.mp hlvl)) (nodup_deeperLevels level) hpassed h
  refine ⟨answer, ptrs', hrun, hpassed', hanswer.trans ?_⟩
  exact forall_congr' fun lvl => imp_congr_left mem_deeperLevels

theorem answersExactly_of_passed {userKeys : List Bytes}
    (hapart : ∀ lvl : Level, level.val + 2 ≤ lvl.val → FilesApart (v.files lvl))
    (hascending : userKeys.Pairwise fun a b => (compare a b).isLE)
    (hpassed : ∀ userKey ∈ userKeys, Passed v userKey ptrs)
    (h : RunsRightly v level ptrs userKeys) : AnswersExactly v level ptrs userKeys := by
  induction userKeys generalizing ptrs with
  | nil => trivial
  | cons userKey userKeys ih =>
    obtain ⟨hlater, hascending⟩ := List.pairwise_cons.mp hascending
    obtain ⟨hcompares, hruns⟩ := h
    obtain ⟨answer, ptrs', hcall, hpassed', hanswer⟩ :=
      isBaseLevelForKey_of_rightly hapart (hpassed userKey List.mem_cons_self) hcompares
    refine ⟨answer, ptrs', hcall, hanswer, ih hascending (fun key hkey => ?_) (hruns _ hcall)⟩
    exact hpassed'.of_isLE (hlater key hkey)

/-- In every run with ascending keys that `cmp` puts where their bytes do, every call answers
rightly. -/
theorem answersExactly_of_runsRightly (v : Version) (level : InputLevel) (userKeys : List Bytes)
    (hapart : ∀ lvl : Level, level.val + 2 ≤ lvl.val → FilesApart (v.files lvl))
    (hascending : userKeys.Pairwise fun a b => (compare a b).isLE)
    (h : RunsRightly v level newLevelPtrs userKeys) :
    AnswersExactly v level newLevelPtrs userKeys :=
  answersExactly_of_passed hapart hascending (fun _ _ => passed_newLevelPtrs) h

/-- A level 2 with one file, whose user keys are longer than a tag. -/
def longKeys : Version where
  files := fun level =>
    if level = 2 then
      [⟨4, 100, .new [2, 0, 0, 0, 0, 0, 0, 0, 0] 1 .value,
        .new [4, 0, 0, 0, 0, 0, 0, 0, 0] 2 .value⟩]
    else []

/-- A key in the file, and one behind it. -/
theorem answersExactly_longKeys : AnswersExactly longKeys ⟨0, by decide⟩ newLevelPtrs
    [[3, 0, 0, 0, 0, 0, 0, 0, 0], [5, 0, 0, 0, 0, 0, 0, 0, 0]] := by
  have hapart : ∀ lvl, FilesApart (longKeys.files lvl) := by decide
  exact answersExactly_of_runsRightly longKeys ⟨0, by decide⟩ _ (fun lvl _ => hapart lvl)
    (by decide) (by decide)

/-- A tombstone for a key that the file of level 2 has would be dropped: `cmp` takes the eight bytes
of the key for a tag. -/
theorem not_answersExactly : ¬ ∀ (v : Version) (level : InputLevel) (userKeys : List Bytes),
    (∀ lvl : Level, level.val + 2 ≤ lvl.val → FilesApart (v.files lvl)) →
      (userKeys.Pairwise fun a b => (compare a b).isLE) →
      AnswersExactly v level newLevelPtrs userKeys := by
  intro h
  obtain ⟨answer, ptrs, hcall, hanswer, -⟩ := h VersionSet.meetingTables.nowversion ⟨0, by decide⟩
    [[3, 0, 0, 0, 0, 0, 0, 0]] (fun lvl _ => filesApart_meetingTables lvl) (by decide)
  have htrue : (isBaseLevelForKey VersionSet.meetingTables.nowversion ⟨0, by decide⟩ newLevelPtrs
      [3, 0, 0, 0, 0, 0, 0, 0]).map (·.1) = some true := by
    decide
  rw [hcall] at htrue
  exact hanswer.mp (Option.some.inj htrue) 2 (by decide) _ List.mem_cons_self (by decide)

end Compaction
end
end Yubindb
