import Mathlib.Data.List.Count
import Yubindb.Db.VersionGet

/-!
# Compactions

`Compaction`, `Version::GetOverlappFiles`, `VersionSet::PickCompaction` and what it calls, in
`src/db/version_set.h`, `src/db/version_set.cpp`. Nothing stands for an access outside an array and for
a `cmp` of views that are too short.
-/

namespace Yubindb
open Std

/-- A `std::shared_ptr<FileMate>` that a version holds: the level that lists it, and the file. -/
structure FilePtr where
  level : Level
  file : FileMate
  deriving DecidableEq, Repr

/-- The pointer is one of the level of the version. -/
def FilePtr.Of (v : Version) (level : Level) (p : FilePtr) : Prop :=
  p.level = level ∧ p.file ∈ v.files level

/-- A level that has one below it. -/
abbrev InputLevel := Fin (kNumLevels - 1)

/-- `Compaction`, but for what `ShouldStopBefore` and `IsBaseLevelForKey` keep. -/
structure Compaction where
  level : InputLevel
  maxOutputFileSize : Nat
  edit : VersionEdit := {}
  inputs0 : List FilePtr := []
  inputs1 : List FilePtr := []
  grandparents : List FilePtr := []
  deriving DecidableEq

namespace Compaction

/-- `TotalFileSize`. -/
def totalFileSize (files : List FilePtr) : Nat := VersionSet.totalFileSize (files.map FilePtr.file)

/-- `IsTrivialMove`; the limit is a product of 32 bits. -/
def isTrivialMove (c : Compaction) (maxFileSize : Nat) : Bool :=
  c.inputs0.length = 1 ∧ c.inputs1.length = 0 ∧
    totalFileSize c.grandparents ≤ (maxFileSize * 10) % 2 ^ 32

/-- `AddInputDeletions`. -/
def addInputDeletions (c : Compaction) (edit : VersionEdit) : VersionEdit :=
  let edit := c.inputs0.foldl (fun edit p => edit.deleteFile c.level.castSucc p.file.num) edit
  c.inputs1.foldl (fun edit p => edit.deleteFile c.level.succ p.file.num) edit

end Compaction

/-! ## Overlapping files -/

namespace Version

/-- The file that the loop of `GetOverlappFiles` looks at in turn `i`, if the loop goes on. Its bound is
the size of level `i`, and the files are those of level 0. -/
def turnFile (v : Version) (i : Nat) : Option (Option FileMate) :=
  if h : i < kNumLevels then
    if i < (v.files ⟨i, h⟩).length then (v.files 0)[i]?.map some else some none
  else none

/-- What a turn of the loop does with its file. -/
inductive OverlapTurn
  | skip | push
  | restart (userBegin userEnd : Bytes)
  deriving DecidableEq, Repr

/-- The body of the loop of `GetOverlappFiles`. -/
def overlapTurn (userBegin userEnd : Bytes) (p : FileMate) : Option OverlapTurn := do
  if (← viewCmp userBegin p.largest.extractUserKey) = .gt then return .skip
  if (← viewCmp userEnd p.smallest.extractUserKey) = .lt then return .skip
  if (← viewCmp userEnd p.smallest.extractUserKey) = .lt then
    return .restart p.smallest.extractUserKey userEnd
  if (← viewCmp p.largest.extractUserKey userEnd) = .gt then
    return .restart userBegin p.largest.extractUserKey
  return .push

/-- The file ends behind the range. -/
def endsBehind (userEnd : Bytes) (p : FileMate) : Bool := cmp p.largest.extractUserKey userEnd = .gt

theorem overlapTurn_eq {userBegin userEnd : Bytes} {p : FileMate} :
    overlapTurn userBegin userEnd p =
      (viewCmp userBegin p.largest.extractUserKey).bind fun low =>
        if low = .gt then some .skip
        else (viewCmp userEnd p.smallest.extractUserKey).map fun high =>
          if high = .lt then .skip
          else if endsBehind userEnd p then .restart userBegin p.largest.extractUserKey
          else .push := by
  rw [overlapTurn]
  cases hlow : viewCmp userBegin p.largest.extractUserKey with
  | none => rfl
  | some low =>
    cases hhigh : viewCmp userEnd p.smallest.extractUserKey with
    | none => by_cases h : low = .gt <;> simp [h]
    | some high =>
      have hlast : viewCmp p.largest.extractUserKey userEnd =
          some (cmp p.largest.extractUserKey userEnd) :=
        viewCmp_eq_some.mpr
          ⟨⟨(viewCmp_eq_some.mp hlow).1.2, (viewCmp_eq_some.mp hhigh).1.1⟩, rfl⟩
      by_cases hskip : low = .gt
      · simp [hskip]
      · by_cases hskip' : high = .lt
        · simp [hskip']
        · by_cases hend : endsBehind userEnd p
          · have hgt : cmp p.largest.extractUserKey userEnd = .gt := of_decide_eq_true hend
            simp [hskip, hskip', hlast, hgt, hend]
          · have hle : cmp p.largest.extractUserKey userEnd ≠ .gt := fun h => hend (decide_eq_true h)
            simp [hskip, hskip', hlast, hle, hend]

theorem overlapTurn_eq_restart {userBegin userEnd b e : Bytes} {p : FileMate}
    (h : overlapTurn userBegin userEnd p = some (.restart b e)) :
    b = userBegin ∧ e = p.largest.extractUserKey ∧ endsBehind userEnd p := by
  rw [overlapTurn_eq, Option.bind_eq_some_iff] at h
  obtain ⟨low, -, h⟩ := h
  split at h
  · cases h
  · obtain ⟨high, -, h⟩ := Option.map_eq_some_iff.mp h
    split at h
    · cases h
    · split at h
      · next hend =>
        cases h
        exact ⟨rfl, rfl, hend⟩
      · cases h

theorem turnFile_eq_some {v : Version} {i : Nat} {p : FileMate} (h : v.turnFile i = some (some p)) :
    i < kNumLevels ∧ p ∈ v.files 0 := by
  rw [turnFile] at h
  split at h
  · next hi =>
    refine ⟨hi, ?_⟩
    split at h
    · obtain ⟨q, hq, hqp⟩ := Option.map_eq_some_iff.mp h
      exact Option.some.inj hqp ▸ List.mem_of_getElem? hq
    · cases h
  · cases h

/-- A file that ends behind the range moves the end, and no longer does. -/
theorem countP_endsBehind_lt {files : List FileMate} {userEnd : Bytes} {p : FileMate}
    (hp : p ∈ files) (hend : endsBehind userEnd p) :
    files.countP (endsBehind p.largest.extractUserKey) < files.countP (endsBehind userEnd) := by
  have hself : ¬ endsBehind p.largest.extractUserKey p := by simp [endsBehind, ReflCmp.compare_self]
  have hmono (fs : List FileMate) :
      fs.countP (endsBehind p.largest.extractUserKey) ≤ fs.countP (endsBehind userEnd) :=
    List.countP_mono_left fun q _ hq =>
      decide_eq_true (TransCmp.gt_trans (of_decide_eq_true hq) (of_decide_eq_true hend))
  obtain ⟨before, after, rfl⟩ := List.append_of_mem hp
  rw [List.countP_append, List.countP_append, List.countP_cons_of_neg hself,
    List.countP_cons_of_pos hend]
  have := hmono before
  have := hmono after
  omega

/-- The loop of `GetOverlappFiles` from turn `i` on. Behind a restart comes turn 1. -/
def overlapFrom (v : Version) (i : Nat) (userBegin userEnd : Bytes) (inputs : List FilePtr) :
    Option (List FilePtr) :=
  match _hfile : v.turnFile i with
  | none => none
  | some none => some inputs
  | some (some p) =>
    match hturn : overlapTurn userBegin userEnd p with
    | none => none
    | some .skip => v.overlapFrom (i + 1) userBegin userEnd inputs
    | some .push => v.overlapFrom (i + 1) userBegin userEnd (inputs ++ [⟨0, p⟩])
    | some (.restart userBegin userEnd) => v.overlapFrom 1 userBegin userEnd []
termination_by ((v.files 0).countP (endsBehind userEnd), kNumLevels - i)
decreasing_by
  · have := (turnFile_eq_some _hfile).1
    exact Prod.Lex.right _ (by omega)
  · have := (turnFile_eq_some _hfile).1
    exact Prod.Lex.right _ (by omega)
  · obtain ⟨-, rfl, hend⟩ := overlapTurn_eq_restart hturn
    exact Prod.Lex.left _ _ (countP_endsBehind_lt (turnFile_eq_some _hfile).2 hend)

/-- `GetOverlappFiles`, which never looks at the level. -/
def getOverlappFiles (v : Version) (_level : Nat) (smallest largest : InternalKey) :
    Option (List FilePtr) :=
  v.overlapFrom 0 smallest.extractUserKey largest.extractUserKey []

end Version

namespace VersionSet

/-- `GetRange`. -/
def getRange : List FilePtr → Option (InternalKey × InternalKey)
  | [] => none
  | p :: ps =>
    let turn (range : InternalKey × InternalKey) (p : FilePtr) : InternalKey × InternalKey :=
      (if InternalKey.cmp range.1 p.file.smallest = .lt then p.file.smallest else range.1,
        if InternalKey.cmp range.2 p.file.largest = .gt then p.file.largest else range.2)
    some (ps.foldl turn (p.file.smallest, p.file.largest))

/-- `GetRange2`. -/
def getRange2 (inputs1 inputs2 : List FilePtr) : Option (InternalKey × InternalKey) :=
  getRange (inputs1 ++ inputs2)

/-- The part of `SetupOtherInputs` that tries to take more files of `level_`; with `largest` and the
range of both inputs. -/
def expandInputs (v : Version) (c : Compaction) (largest allStart allLimit : InternalKey) :
    Option (Compaction × InternalKey × InternalKey × InternalKey) :=
  if c.inputs1 = [] then some (c, largest, allStart, allLimit)
  else do
    let expand ← v.getOverlappFiles c.level allStart allLimit
    if expand.length > c.inputs0.length then
      let (newStart, newLimit) ← getRange expand
      let expanded1 ← v.getOverlappFiles (c.level + 1) newStart newLimit
      if expanded1.length = c.inputs1.length then
        let (allStart, allLimit) ← getRange2 expand expanded1
        return ({ c with inputs0 := expand, inputs1 := expanded1 }, newLimit, allStart, allLimit)
      else return (c, largest, allStart, allLimit)
    else return (c, largest, allStart, allLimit)

/-- The end of `SetupOtherInputs`. -/
def setupGrandparents (vs : VersionSet) (c : Compaction) (largest allStart allLimit : InternalKey) :
    Option (Compaction × VersionSet) :=
  if c.level + 2 < kNumLevels then
    (vs.nowversion.getOverlappFiles (c.level + 2) allStart allLimit).map fun grandparents =>
      ({ c with grandparents, edit := c.edit.setCompactPointer c.level.castSucc largest },
        { vs with compactPointer := Function.update vs.compactPointer c.level.castSucc largest.Key })
  else some (c, vs)

/-- `SetupOtherInputs`. -/
def setupOtherInputs (vs : VersionSet) (c : Compaction) : Option (Compaction × VersionSet) := do
  let v := vs.nowversion
  let (smallest, largest) ← getRange c.inputs0
  let inputs1 ← v.getOverlappFiles (c.level + 1) smallest largest
  let c := { c with inputs1 }
  let (allStart, allLimit) ← getRange2 c.inputs0 c.inputs1
  let (c, largest, allStart, allLimit) ← expandInputs v c largest allStart allLimit
  vs.setupGrandparents c largest allStart allLimit

/-- The loop of `PickCompaction` over the files of the level. -/
def pickFile (compactPointer : Bytes) : List FileMate → Option (Option FileMate)
  | [] => some none
  | f :: fs => do
    if compactPointer = [] then return some f
    if (← viewCmp compactPointer f.largest.Key) = .gt then return some f
    pickFile compactPointer fs

/-- The file of the level that `PickCompaction` starts with. -/
def chosenFile (vs : VersionSet) (level : InputLevel) : Option FileMate := do
  let files := vs.nowversion.files level.castSucc
  (← pickFile (vs.compactPointer level.castSucc) files).or files.head?

/-- `inputs_[0]` in front of `SetupOtherInputs`: the chosen file, or what it meets at level 0. -/
def startInputs (vs : VersionSet) (level : InputLevel) : Option (List FilePtr) := do
  let f ← vs.chosenFile level
  let inputs0 := [⟨level.castSucc, f⟩]
  if level.val = 0 then
    let (small, large) ← getRange inputs0
    vs.nowversion.getOverlappFiles 0 small large
  else return inputs0

/-- `PickCompaction` from the point where the level is known. -/
def pickCompactionAt (vs : VersionSet) (maxFileSize : Nat) (level : InputLevel) :
    Option (Compaction × VersionSet) := do
  let inputs0 ← vs.startInputs level
  vs.setupOtherInputs { level, maxOutputFileSize := maxFileSize, inputs0 }

/-- `PickCompaction`, for a level that `Finalize` can choose. -/
def pickCompaction (vs : VersionSet) (maxFileSize : Nat) : Option (Option Compaction × VersionSet) :=
  if vs.needsCompaction then
    if h : 0 ≤ vs.nowversion.compactionLevel ∧ vs.nowversion.compactionLevel < kNumLevels - 1 then
      (vs.pickCompactionAt maxFileSize ⟨vs.nowversion.compactionLevel.toNat, by omega⟩).map
        fun (c, vs) => (some c, vs)
    else none
  else some (none, vs)

end VersionSet

/-! ## What the loop of `GetOverlappFiles` does -/

namespace Version
variable {v : Version} {i : Nat} {userBegin userEnd b e : Bytes} {inputs : List FilePtr} {p : FileMate}

theorem overlapFrom_undefined (h : v.turnFile i = none) :
    v.overlapFrom i userBegin userEnd inputs = none := by
  rw [overlapFrom]
  split <;> simp_all

theorem overlapFrom_end (h : v.turnFile i = some none) :
    v.overlapFrom i userBegin userEnd inputs = some inputs := by
  rw [overlapFrom]
  split <;> simp_all

/-- A turn that looks at a file. -/
theorem overlapFrom_turn (h : v.turnFile i = some (some p)) :
    v.overlapFrom i userBegin userEnd inputs =
      (overlapTurn userBegin userEnd p).bind fun turn =>
        match turn with
        | .skip => v.overlapFrom (i + 1) userBegin userEnd inputs
        | .push => v.overlapFrom (i + 1) userBegin userEnd (inputs ++ [⟨0, p⟩])
        | .restart b e => v.overlapFrom 1 b e [] := by
  rw [overlapFrom]
  split
  · next hnone => simp [hnone] at h
  · next hnone => simp [hnone] at h
  · next q hq =>
    obtain rfl : q = p := by simpa [hq] using h
    split <;> simp_all

/-- Whatever the level, the files are those of level 0. -/
theorem of_mem_overlapFrom {fs : List FilePtr} (hinputs : ∀ p ∈ inputs, p.Of v 0)
    (h : v.overlapFrom i userBegin userEnd inputs = some fs) : ∀ p ∈ fs, p.Of v 0 := by
  fun_induction overlapFrom v i userBegin userEnd inputs with
  | case1 => cases h
  | case2 => exact Option.some.inj h ▸ hinputs
  | case3 => cases h
  | case4 i userBegin userEnd inputs p _ _ ih => exact ih hinputs h
  | case5 i userBegin userEnd inputs p hfile _ ih =>
    refine ih (fun q hq => ?_) h
    rcases List.mem_append.mp hq with hq | hq
    · exact hinputs q hq
    · exact List.mem_singleton.mp hq ▸ ⟨rfl, (turnFile_eq_some hfile).2⟩
  | case6 i userBegin userEnd inputs p _ b e _ ih =>
    exact ih (fun _ hq => absurd hq List.not_mem_nil) h

theorem of_mem_getOverlappFiles {level : Nat} {smallest largest : InternalKey}
    {fs : List FilePtr} (h : v.getOverlappFiles level smallest largest = some fs) :
    ∀ p ∈ fs, p.Of v 0 :=
  of_mem_overlapFrom (fun _ hq => absurd hq List.not_mem_nil) h

end Version

/-! ## What `PickCompaction` returns -/

namespace VersionSet
variable {v : Version} {vs vs' : VersionSet} {c c' : Compaction}

/-- The files of `inputs_[1]` are kept, or exchanged for as many. -/
theorem expandInputs_cases {largest allStart allLimit largest' allStart' allLimit' : InternalKey}
    (h : expandInputs v c largest allStart allLimit = some (c', largest', allStart', allLimit')) :
    c' = c ∨ c.inputs1 ≠ [] ∧ ∃ expand expanded1, (∀ p ∈ expanded1, p.Of v 0) ∧
      expanded1.length = c.inputs1.length ∧
      c' = { c with inputs0 := expand, inputs1 := expanded1 } := by
  rw [expandInputs] at h
  split at h
  · cases h
    exact .inl rfl
  · next hne =>
    obtain ⟨expand, hexpand, h⟩ := Option.bind_eq_some_iff.mp h
    split at h
    · obtain ⟨⟨newStart, newLimit⟩, -, h⟩ := Option.bind_eq_some_iff.mp h
      obtain ⟨expanded1, hexpanded1, h⟩ := Option.bind_eq_some_iff.mp h
      split at h
      · next hlen =>
        obtain ⟨⟨allStart, allLimit⟩, -, h⟩ := Option.bind_eq_some_iff.mp h
        cases h
        exact .inr ⟨hne, expand, expanded1, Version.of_mem_getOverlappFiles hexpanded1, hlen,
          rfl⟩
      · cases h
        exact .inl rfl
    · cases h
      exact .inl rfl

/-- What `SetupOtherInputs` leaves alone. -/
structure SetUp (vs : VersionSet) (c : Compaction) (vs' : VersionSet) (c' : Compaction) : Prop where
  nowversion : vs'.nowversion = vs.nowversion
  level : c'.level = c.level
  newFiles : c'.edit.newFiles = c.edit.newFiles
  deletedFiles : c'.edit.deletedFiles = c.edit.deletedFiles

theorem setupGrandparents_cases {largest allStart allLimit : InternalKey}
    (h : vs.setupGrandparents c largest allStart allLimit = some (c', vs')) :
    vs.SetUp c vs' c' ∧ c'.inputs0 = c.inputs0 ∧ c'.inputs1 = c.inputs1 := by
  rw [setupGrandparents] at h
  split at h
  · obtain ⟨grandparents, -, h⟩ := Option.map_eq_some_iff.mp h
    cases h
    exact ⟨⟨rfl, rfl, rfl, rfl⟩, rfl, rfl⟩
  · cases h
    exact ⟨⟨rfl, rfl, rfl, rfl⟩, rfl, rfl⟩

/-- There are no files of `inputs_[1]`, or they are of level 0. -/
theorem setupOtherInputs_cases (h : vs.setupOtherInputs c = some (c', vs')) :
    vs.SetUp c vs' c' ∧ ∃ smallest largest inputs1, getRange c.inputs0 = some (smallest, largest) ∧
      vs.nowversion.getOverlappFiles (c.level + 1) smallest largest = some inputs1 ∧
      (inputs1 = [] ∧ c'.inputs0 = c.inputs0 ∧ c'.inputs1 = [] ∨
        inputs1 ≠ [] ∧ c'.inputs1 ≠ [] ∧ ∀ p ∈ c'.inputs1, p.Of vs.nowversion 0) := by
  obtain ⟨⟨smallest, largest⟩, hrange, h⟩ := Option.bind_eq_some_iff.mp h
  obtain ⟨inputs1, hinputs1, h⟩ := Option.bind_eq_some_iff.mp h
  obtain ⟨⟨allStart, allLimit⟩, -, h⟩ := Option.bind_eq_some_iff.mp h
  obtain ⟨⟨c₁, largest₁, allStart₁, allLimit₁⟩, hexpand, h⟩ := Option.bind_eq_some_iff.mp h
  obtain ⟨hsetup, h0, h1⟩ := setupGrandparents_cases h
  rcases expandInputs_cases hexpand with rfl | ⟨hne, expand, expanded1, hlevel, hlen, rfl⟩
  · refine ⟨⟨hsetup.1, hsetup.2, hsetup.3, hsetup.4⟩, smallest, largest, inputs1, hrange, hinputs1, ?_⟩
    by_cases hnil : inputs1 = []
    · exact .inl ⟨hnil, h0, h1.trans hnil⟩
    · refine .inr ⟨hnil, fun h => hnil (h1.symm.trans h), fun p hp => ?_⟩
      rw [h1] at hp
      exact Version.of_mem_getOverlappFiles hinputs1 p hp
  · refine ⟨⟨hsetup.1, hsetup.2, hsetup.3, hsetup.4⟩, smallest, largest, inputs1, hrange, hinputs1, ?_⟩
    refine .inr ⟨hne, fun h => ?_, fun p hp => ?_⟩
    · have hnil : expanded1 = [] := h1.symm.trans h
      rw [hnil] at hlen
      exact hne (List.length_eq_zero_iff.mp hlen.symm)
    · rw [h1] at hp
      exact hlevel p hp

/-- Where no file is found for `inputs_[1]`, none is found for `grandparents_` either: the range is the
same, and so are the files. -/
theorem setupOtherInputs_of_nil {smallest largest : InternalKey}
    (hrange : getRange c.inputs0 = some (smallest, largest))
    (hnil : vs.nowversion.getOverlappFiles (c.level + 1) smallest largest = some []) :
    vs.setupOtherInputs c =
      some (if c.level + 2 < kNumLevels then
        ({ c with
            inputs1 := []
            grandparents := []
            edit := c.edit.setCompactPointer c.level.castSucc largest },
          { vs with
            compactPointer := Function.update vs.compactPointer c.level.castSucc largest.Key })
        else ({ c with inputs1 := [] }, vs)) := by
  have hgrand : vs.nowversion.getOverlappFiles (c.level + 2) smallest largest = some [] := hnil
  have hrange2 : getRange2 c.inputs0 [] = some (smallest, largest) := by
    rw [getRange2, List.append_nil, hrange]
  rw [setupOtherInputs]
  simp only [hrange, hnil, hrange2, Option.bind_eq_bind, Option.bind_some, expandInputs, if_true,
    setupGrandparents, hgrand, Option.map_some]
  split <;> rfl

theorem mem_of_pickFile {compactPointer : Bytes} {files : List FileMate} {f : FileMate}
    (h : pickFile compactPointer files = some (some f)) : f ∈ files := by
  induction files with
  | nil => cases h
  | cons g files ih =>
    rw [pickFile] at h
    split at h
    · cases h
      exact List.mem_cons_self
    · obtain ⟨order, -, h⟩ := Option.bind_eq_some_iff.mp h
      split at h
      · cases h
        exact List.mem_cons_self
      · exact List.mem_cons_of_mem g (ih h)

theorem mem_of_chosenFile {level : InputLevel} {f : FileMate} (h : vs.chosenFile level = some f) :
    f ∈ vs.nowversion.files level.castSucc := by
  obtain ⟨picked, hpick, h⟩ := Option.bind_eq_some_iff.mp h
  cases picked with
  | none => exact List.mem_of_head? h
  | some g =>
    cases h
    exact mem_of_pickFile hpick

theorem startInputs_of_pos {level : InputLevel} (hlevel : 0 < level.val) :
    vs.startInputs level = (vs.chosenFile level).map fun f => [⟨level.castSucc, f⟩] := by
  rw [startInputs]
  simp only [if_neg hlevel.ne']
  cases vs.chosenFile level <;> rfl

/-- `inputs_[0]` starts with files of its level. -/
theorem of_mem_startInputs {level : InputLevel} {inputs0 : List FilePtr}
    (h : vs.startInputs level = some inputs0) :
    ∀ p ∈ inputs0, p.Of vs.nowversion level.castSucc := by
  rcases Nat.eq_zero_or_pos level.val with hzero | hpos
  · obtain ⟨f, -, h⟩ := Option.bind_eq_some_iff.mp h
    dsimp only at h
    rw [if_pos hzero] at h
    obtain ⟨⟨small, large⟩, -, h⟩ := Option.bind_eq_some_iff.mp h
    have hcast : level.castSucc = 0 := Fin.ext hzero
    rw [hcast]
    exact Version.of_mem_getOverlappFiles h
  · rw [startInputs_of_pos hpos] at h
    obtain ⟨f, hf, rfl⟩ := Option.map_eq_some_iff.mp h
    exact fun p hp => List.mem_singleton.mp hp ▸ ⟨rfl, mem_of_chosenFile hf⟩

theorem pickCompactionAt_setUp {maxFileSize : Nat} {level : InputLevel}
    (h : vs.pickCompactionAt maxFileSize level = some (c, vs')) :
    ∃ c₀ : Compaction, c₀.level = level ∧ c₀.edit = {} ∧ vs.SetUp c₀ vs' c := by
  obtain ⟨inputs0, -, h⟩ := Option.bind_eq_some_iff.mp h
  exact ⟨_, rfl, rfl, (setupOtherInputs_cases h).1⟩

theorem pickCompaction_eq_some {maxFileSize : Nat}
    (h : vs.pickCompaction maxFileSize = some (some c, vs')) :
    vs.nowversion.compactionLevel = c.level.val ∧
      vs.pickCompactionAt maxFileSize c.level = some (c, vs') := by
  rw [pickCompaction] at h
  split at h
  · split at h
    · next hlevel =>
      obtain ⟨⟨c₁, vs₁⟩, hpick, heq⟩ := Option.map_eq_some_iff.mp h
      obtain ⟨rfl, rfl⟩ : c₁ = c ∧ vs₁ = vs' := by simpa using heq
      obtain ⟨c₀, hc₀, -, hsetup⟩ := pickCompactionAt_setUp hpick
      have hc : c₁.level = ⟨vs.nowversion.compactionLevel.toNat, by omega⟩ := hsetup.level.trans hc₀
      rw [hc]
      exact ⟨(Int.toNat_of_nonneg hlevel.1).symm, hpick⟩
    · cases h
  · cases h

/-- The edit of a compaction that has been picked adds and deletes nothing yet. -/
theorem pickCompaction_edit {maxFileSize : Nat}
    (h : vs.pickCompaction maxFileSize = some (some c, vs')) :
    vs'.nowversion = vs.nowversion ∧ c.edit.newFiles = [] ∧ c.edit.deletedFiles = ∅ := by
  obtain ⟨c₀, -, hedit, hsetup⟩ := pickCompactionAt_setUp (pickCompaction_eq_some h).2
  rw [hsetup.newFiles, hsetup.deletedFiles, hedit]
  exact ⟨hsetup.nowversion, rfl, rfl⟩

end VersionSet
end Yubindb
