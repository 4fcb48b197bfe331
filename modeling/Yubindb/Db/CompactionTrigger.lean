import Mathlib.Algebra.BigOperators.Group.List.Basic
import Mathlib.Data.List.MinMax
import Mathlib.Tactic.Linarith
import Mathlib.Tactic.NormNum
import Mathlib.Tactic.Positivity
import Yubindb.Db.BuilderLevels
import Yubindb.Db.ManifestRecovery
import Yubindb.Theory.Steps

/-!
# The compaction trigger

`Finalize` computes the scores of a version, and `NeedsCompaction` reads them. The scores are exact
rationals here, as total sizes below `2^53` make them in a `double`.
-/

namespace Yubindb

/-- `config::kL0_Compaction`. -/
def kL0_Compaction : Nat := 4

namespace VersionSet

/-! ## Scores -/

/-- The score of a level, as `Finalize` computes it. -/
def levelScore (files : LevelFiles) (i : Level) : ℚ :=
  if i = 0 then (files 0).length / kL0_Compaction
  else totalFileSize (files i) / maxBytesForLevel i

/-- Four files of level 0, or one of the levels 1 to 5 at its limit. -/
def Crowded (files : LevelFiles) : Prop :=
  4 ≤ (files 0).length ∨
    ∃ i : Level, (1 ≤ i.val ∧ i.val ≤ 5) ∧ 10 * 2 ^ 20 * 10 ^ (i.val - 1) ≤ totalFileSize (files i)

instance (files : LevelFiles) : Decidable (Crowded files) := inferInstanceAs (Decidable (_ ∨ _))

theorem maxBytesForLevel_pos (level : Nat) : 0 < maxBytesForLevel level := by
  rw [maxBytesForLevel]
  positivity

theorem levelScore_nonneg (files : LevelFiles) (i : Level) : 0 ≤ levelScore files i := by
  rw [levelScore]
  split
  · positivity
  · exact div_nonneg (Nat.cast_nonneg _) (maxBytesForLevel_pos _).le

/-- A crowded level is one with a score of at least 1. -/
theorem crowded_iff {files : LevelFiles} :
    Crowded files ↔ ∃ i : Level, i.val ≤ 5 ∧ 1 ≤ levelScore files i := by
  have hzero : 1 ≤ levelScore files 0 ↔ 4 ≤ (files 0).length := by
    rw [levelScore, if_pos rfl, kL0_Compaction, le_div_iff₀ (by norm_num)]
    norm_cast
  have hpos (i : Level) (hi : i ≠ 0) :
      1 ≤ levelScore files i ↔ 10 * 2 ^ 20 * 10 ^ (i.val - 1) ≤ totalFileSize (files i) := by
    rw [levelScore, if_neg hi, le_div_iff₀ (maxBytesForLevel_pos _), maxBytesForLevel, one_mul]
    norm_cast
  constructor
  · rintro (h | ⟨i, ⟨hi, hle⟩, h⟩)
    · exact ⟨0, Nat.zero_le _, hzero.mpr h⟩
    · exact ⟨i, hle, (hpos i fun h0 => by simp [h0] at hi).mpr h⟩
  · rintro ⟨i, hle, h⟩
    by_cases hi : i = 0
    · exact .inl (hzero.mp (hi ▸ h))
    · have hone : 1 ≤ i.val := Nat.one_le_iff_ne_zero.mpr fun h0 => hi (Fin.ext h0)
      exact .inr ⟨i, ⟨hone, hle⟩, (hpos i hi).mp h⟩

/-- The levels whose scores `Finalize` compares. -/
def scoredLevels : List Level := [1, 2, 3, 4, 5]

/-- `maxlevel` and `maxscore`, where the best level so far is given. -/
def scoreOf (files : LevelFiles) : Option Level → Int × ℚ
  | none => (-1, -1)
  | some i => (i.val, levelScore files i)

/-- The loop of `Finalize` keeps the first of the levels with the greatest score. -/
theorem foldl_finalizeLevel {v : Version} {is : List Level} (h : ∀ i ∈ is, i ≠ 0) :
    is.foldl (finalizeLevel v) (-1, -1) = scoreOf v.files (is.argmax (levelScore v.files)) := by
  induction is using List.reverseRecOn with
  | nil => rfl
  | append_singleton is i ih =>
    obtain ⟨his, hi⟩ := List.forall_mem_append.mp h
    have hi : i ≠ 0 := hi i (List.mem_singleton_self i)
    have hscore : levelScore v.files i = totalFileSize (v.files i) / maxBytesForLevel i := if_neg hi
    rw [List.foldl_append, ih his, List.foldl_cons, List.foldl_nil, finalizeLevel, if_neg hi,
      ← hscore, List.argmax_concat]
    cases is.argmax (levelScore v.files) with
    | none =>
      have hgt : levelScore v.files i > -1 := lt_of_lt_of_le (by norm_num) (levelScore_nonneg _ i)
      exact if_pos hgt
    | some k =>
      change (if levelScore v.files i > levelScore v.files k then _ else _) =
        scoreOf v.files (if levelScore v.files k < levelScore v.files i then some i else some k)
      split <;> rfl

/-- `Finalize` stores a level and its score, whatever the version. -/
theorem finalize_argmax (vs : VersionSet) (v : Version) :
    ∃ i ∈ scoredLevels.argmax (levelScore v.files),
      vs.finalize v = { vs with nowversion := { vs.nowversion with
        compactionLevel := i.val, compactionScore := levelScore v.files i } } := by
  have hne : scoredLevels.argmax (levelScore v.files) ≠ none :=
    fun h => List.cons_ne_nil _ _ (List.argmax_eq_none.mp h)
  obtain ⟨i, hi⟩ := Option.ne_none_iff_exists'.mp hne
  refine ⟨i, hi, ?_⟩
  have hlevels : (List.finRange kNumLevels).take (kNumLevels - 1) = 0 :: scoredLevels := by rfl
  have hzero : ∀ i ∈ scoredLevels, i ≠ 0 := by decide
  rw [finalize, hlevels, List.foldl_cons, finalizeLevel, if_pos rfl, foldl_finalizeLevel hzero, hi]
  rfl

/-- `Finalize` finds a level of greatest score among the levels 1 to 5, and stores it in
`nowversion`. -/
theorem finalize_greatest (vs : VersionSet) (v : Version) :
    ∃ i : Level, (1 ≤ i.val ∧ i.val ≤ 5) ∧
      (vs.finalize v).nowversion = { vs.nowversion with
        compactionLevel := i.val, compactionScore := levelScore v.files i } ∧
      ∀ j : Level, 1 ≤ j.val → j.val ≤ 5 → levelScore v.files j ≤ levelScore v.files i := by
  have hlevels (j : Level) : j ∈ scoredLevels ↔ 1 ≤ j.val ∧ j.val ≤ 5 := by
    revert j
    decide
  obtain ⟨i, hi, hfinal⟩ := finalize_argmax vs v
  refine ⟨i, (hlevels i).mp (List.argmax_mem hi), congrArg nowversion hfinal, fun j hj hj' => ?_⟩
  exact List.le_of_mem_argmax ((hlevels j).mpr ⟨hj, hj'⟩) hi

theorem levelScore_perm {files files' : LevelFiles}
    (h : ∀ level, (files level).Perm (files' level)) : levelScore files = levelScore files' := by
  funext i
  have htotal : totalFileSize (files i) = totalFileSize (files' i) :=
    ((h i).map FileMate.fileSize).sum_eq
  rw [levelScore, levelScore, (h 0).length_eq, htotal]

theorem Crowded.perm {files files' : LevelFiles} (h : ∀ level, (files level).Perm (files' level)) :
    Crowded files ↔ Crowded files' := by
  rw [crowded_iff, crowded_iff, levelScore_perm h]

/-! ## The trigger -/

/-- `NeedsCompaction` follows the current version, and `compaction_level` is a level of greatest
score. -/
structure TriggerFollows (vs : VersionSet) : Prop where
  needs : vs.needsCompaction = true ↔ Crowded vs.nowversion.files
  greatest : vs.needsCompaction = true → ∃ i : Level, i.val ≤ 5 ∧
    vs.nowversion.compactionLevel = i.val ∧
    ∀ j : Level, j.val ≤ 5 → levelScore vs.nowversion.files j ≤ levelScore vs.nowversion.files i

variable {vs vs' : VersionSet} {disk disk' : Disk} {edit : VersionEdit} {io : ManifestIo}

/-- A successful call makes a version current whose scores nothing has computed. -/
theorem logAndApply_nowversion (h : vs.logAndApply disk edit io = some (.ok, vs', disk')) :
    vs'.nowversion =
      { files := (({ base := vs.nowversion } : Builder).apply edit).savedFiles } := by
  obtain ⟨v, d, hv, rfl⟩ := logAndApply_eq_ok h
  rw [Builder.saveTo] at hv
  split at hv
  · cases hv
    rfl
  · cases hv

theorem triggerFollows_logAndApply (h : vs.logAndApply disk edit io = some (.ok, vs', disk')) :
    vs'.TriggerFollows ↔ ¬ Crowded (vs.nowversion.under edit) := by
  have hnow := logAndApply_nowversion h
  have hneeds : vs'.needsCompaction = false := by
    rw [needsCompaction, hnow]
    exact decide_eq_false (show ¬ (-1 : ℚ) ≥ 1 by norm_num)
  have hcrowded : Crowded vs'.nowversion.files ↔ Crowded (vs.nowversion.under edit) := by
    rw [hnow]
    exact Crowded.perm (Builder.perm_under vs.nowversion edit)
  constructor
  · rintro ⟨hiff, -⟩
    rw [← hcrowded, ← hiff, hneeds]
    exact Bool.false_ne_true
  · intro hnot
    refine ⟨?_, fun htrue => absurd (hneeds.symm.trans htrue) Bool.false_ne_true⟩
    rw [hneeds, hcrowded]
    exact iff_of_false Bool.false_ne_true hnot

end VersionSet

/-! ## Sequences of calls -/

/-- A call of `LogAndApply`, and what its caller does before it. -/
structure ApplyCall extends ApplyStep where
  io : ManifestIo

/-- A call that succeeds. -/
def ApplyCall.run (c : ApplyCall) (w : VersionSet × Disk) : Option (VersionSet × Disk) :=
  match (c.prepare w.1).logAndApply w.2 c.edit c.io with
  | some (.ok, w') => some w'
  | _ => none

theorem ApplyCall.run_eq_some {c : ApplyCall} {w w' : VersionSet × Disk} :
    c.run w = some w' ↔ (c.prepare w.1).logAndApply w.2 c.edit c.io = some (.ok, w') := by
  rw [run]
  split
  · next heq => simp [heq]
  · next hne => exact ⟨nofun, fun h => absurd h (hne w')⟩

/-- The trigger follows the current version after each call of a sequence exactly when none of its
edits leaves a crowded version. -/
theorem triggerFollows_iff (calls : List ApplyCall) (w : VersionSet × Disk) :
    EachStep ApplyCall.run (fun _ _ w' => w'.1.TriggerFollows) calls w ↔
      EachStep ApplyCall.run
        (fun w c _ => ¬ VersionSet.Crowded (w.1.nowversion.under c.edit)) calls w := by
  refine eachStep_congr (fun w c w' h => ?_) calls w
  rw [VersionSet.triggerFollows_logAndApply (ApplyCall.run_eq_some.mp h),
    ApplyStep.prepare_nowversion]

/-- Four tables of level 0. -/
def fourTables : ApplyCall where
  newFileNumbers := 4
  lastSequence := 4
  edit := { newFiles := [3, 4, 5, 6].map fun n =>
    (0, ⟨n, 100, .new [107] n .value, .new [107] n .value⟩) }
  io := {}

/-- On a new database: the call that adds them leaves the trigger off. -/
theorem not_triggerFollows :
    ¬ ∀ (calls : List ApplyCall) (w : VersionSet × Disk),
      EachStep ApplyCall.run (fun _ _ w' => w'.1.TriggerFollows) calls w := by
  intro h
  have hsome : (fourTables.run (newVersionSet, newDb)).isSome := by decide +kernel
  have hcrowded : VersionSet.Crowded (newVersionSet.nowversion.under fourTables.edit) := by
    decide +kernel
  obtain ⟨w', hw'⟩ := Option.isSome_iff_exists.mp hsome
  have hfollows : w'.1.TriggerFollows := (h [fourTables] (newVersionSet, newDb) w' hw').1
  rw [VersionSet.triggerFollows_logAndApply (ApplyCall.run_eq_some.mp hw'),
    ApplyStep.prepare_nowversion] at hfollows
  exact hfollows hcrowded

end Yubindb
