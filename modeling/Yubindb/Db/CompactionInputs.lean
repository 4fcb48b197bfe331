import Yubindb.Db.Compaction

/-!
# The inputs of a compaction

Whether the files that `PickCompaction` returns are all that meet each other. Ranges of user keys are in the
order of their bytes; the loops of `GetOverlappFiles` compare with `cmp`, which looks at the last eight bytes
of a user key as if they were a tag.
-/

namespace Yubindb
open Std

/-! ## Closed inputs -/

/-- The user keys of the file meet the range that the files span. -/
def MeetsSpan (files : List FilePtr) (f : FileMate) : Prop :=
  (∃ p ∈ files, (compare p.file.smallest.extractUserKey f.largest.extractUserKey).isLE) ∧
    ∃ p ∈ files, (compare f.smallest.extractUserKey p.file.largest.extractUserKey).isLE

instance (files : List FilePtr) (f : FileMate) : Decidable (MeetsSpan files f) :=
  inferInstanceAs (Decidable (_ ∧ _))

/-- The inputs are files of their two levels, and no file that meets `inputs_[0]` is missing. -/
structure Compaction.Closed (v : Version) (c : Compaction) : Prop where
  level0 : ∀ p ∈ c.inputs0, p.Of v c.level.castSucc
  level1 : ∀ p ∈ c.inputs1, p.Of v c.level.succ
  below : ∀ f ∈ v.files c.level.succ, MeetsSpan c.inputs0 f → ⟨c.level.succ, f⟩ ∈ c.inputs1
  beside : c.level.val = 0 → ∀ f ∈ v.files 0, MeetsSpan c.inputs0 f → ⟨0, f⟩ ∈ c.inputs0

/-- `PickCompaction` returns, and what it returns is closed. -/
def VersionSet.PicksClosed (vs : VersionSet) (maxFileSize : Nat) : Prop :=
  ∃ picked vs', vs.pickCompaction maxFileSize = some (picked, vs') ∧
    ∀ c ∈ picked, c.Closed vs.nowversion

namespace Version
variable {v : Version} {i j : Nat} {userBegin userEnd : Bytes} {inputs : List FilePtr}
  {files : List FileMate} {p : FileMate}

/-! ## What the loop looks at -/

/-- The files of level 0 that the loop of `GetOverlappFiles` looks at from turn `i` on. -/
def scanned (v : Version) (i : Nat) : Option (List FileMate) :=
  match _hfile : v.turnFile i with
  | none => none
  | some none => some []
  | some (some p) => (v.scanned (i + 1)).map (p :: ·)
termination_by kNumLevels - i
decreasing_by
  have := (turnFile_eq_some _hfile).1
  omega

/-- The file lies in front of the range or behind it. -/
def Misses (userBegin userEnd : Bytes) (p : FileMate) : Prop :=
  viewCmp userBegin p.largest.extractUserKey = some .gt ∨
    (viewCmp userBegin p.largest.extractUserKey).isSome ∧
      viewCmp userEnd p.smallest.extractUserKey = some .lt

/-- The file meets the range and ends behind it. -/
def Widens (userBegin userEnd : Bytes) (p : FileMate) : Prop :=
  (∃ low high, viewCmp userBegin p.largest.extractUserKey = some low ∧ low ≠ .gt ∧
    viewCmp userEnd p.smallest.extractUserKey = some high ∧ high ≠ .lt) ∧ endsBehind userEnd p

/-- No file that the loop looks at meets the range; or the first one does and widens it, and none of the
others meets the wider range. -/
def FindsNone (v : Version) (smallest largest : InternalKey) : Prop :=
  ∃ files, v.scanned 0 = some files ∧
    ((∀ p ∈ files, Misses smallest.extractUserKey largest.extractUserKey p) ∨
      ∃ p rest, files = p :: rest ∧ Widens smallest.extractUserKey largest.extractUserKey p ∧
        ∀ q ∈ rest, Misses smallest.extractUserKey p.largest.extractUserKey q)

/-- The file meets the range in the order of the loop. -/
def ScanMeets (userBegin userEnd : Bytes) (p : FileMate) : Prop :=
  cmp userBegin p.largest.extractUserKey ≠ .gt ∧ cmp userEnd p.smallest.extractUserKey ≠ .lt

instance : Decidable (ScanMeets userBegin userEnd p) := inferInstanceAs (Decidable (_ ∧ _))

/-- The views that a turn compares are long enough. -/
def TurnComparable (userBegin userEnd : Bytes) (p : FileMate) : Prop :=
  (8 ≤ userBegin.length ∧ 8 ≤ p.largest.extractUserKey.length) ∧
    (cmp userBegin p.largest.extractUserKey ≠ .gt →
      8 ≤ userEnd.length ∧ 8 ≤ p.smallest.extractUserKey.length)

/-- What a turn does, when its comparisons are defined. -/
theorem overlapTurn_of_comparable (h : TurnComparable userBegin userEnd p) :
    overlapTurn userBegin userEnd p = some
      (if ScanMeets userBegin userEnd p then
        if endsBehind userEnd p then .restart userBegin p.largest.extractUserKey else .push
      else .skip) := by
  obtain ⟨hlow, hhigh⟩ := h
  rw [overlapTurn_eq, viewCmp_eq_some.mpr ⟨hlow, rfl⟩, Option.bind_some]
  by_cases hfront : cmp userBegin p.largest.extractUserKey = .gt
  · rw [if_pos hfront, if_neg fun hmeets : ScanMeets userBegin userEnd p => hmeets.1 hfront]
  · rw [if_neg hfront, viewCmp_eq_some.mpr ⟨hhigh hfront, rfl⟩, Option.map_some]
    by_cases hbehind : cmp userEnd p.smallest.extractUserKey = .lt
    · rw [if_pos hbehind, if_neg fun hmeets : ScanMeets userBegin userEnd p => hmeets.2 hbehind]
    · rw [if_neg hbehind, if_pos (show ScanMeets userBegin userEnd p from ⟨hfront, hbehind⟩)]

theorem comparable_of_overlapTurn {turn : OverlapTurn}
    (h : overlapTurn userBegin userEnd p = some turn) : TurnComparable userBegin userEnd p := by
  rw [overlapTurn_eq] at h
  obtain ⟨low, hlow, h⟩ := Option.bind_eq_some_iff.mp h
  obtain ⟨hlong, rfl⟩ := viewCmp_eq_some.mp hlow
  refine ⟨hlong, fun hmeets => ?_⟩
  rw [if_neg hmeets] at h
  obtain ⟨high, hhigh, -⟩ := Option.map_eq_some_iff.mp h
  exact (viewCmp_eq_some.mp hhigh).1

theorem misses_iff : Misses userBegin userEnd p ↔
    TurnComparable userBegin userEnd p ∧ ¬ ScanMeets userBegin userEnd p := by
  constructor
  · rintro (hfront | ⟨hlow, hbehind⟩)
    · obtain ⟨hlong, hgt⟩ := viewCmp_eq_some.mp hfront
      exact ⟨⟨hlong, fun hmeets => absurd hgt hmeets⟩, fun hmeets => hmeets.1 hgt⟩
    · obtain ⟨low, hlow⟩ := Option.isSome_iff_exists.mp hlow
      obtain ⟨hlong, hlt⟩ := viewCmp_eq_some.mp hbehind
      exact ⟨⟨(viewCmp_eq_some.mp hlow).1, fun _ => hlong⟩, fun hmeets => hmeets.2 hlt⟩
  · rintro ⟨⟨hlong, hhigh⟩, hmisses⟩
    by_cases hgt : cmp userBegin p.largest.extractUserKey = .gt
    · exact .inl (viewCmp_eq_some.mpr ⟨hlong, hgt⟩)
    · have hlt : cmp userEnd p.smallest.extractUserKey = .lt := by_contra fun h => hmisses ⟨hgt, h⟩
      exact .inr ⟨Option.isSome_iff_exists.mpr ⟨_, viewCmp_eq_some.mpr ⟨hlong, rfl⟩⟩,
        viewCmp_eq_some.mpr ⟨hhigh hgt, hlt⟩⟩

theorem widens_iff : Widens userBegin userEnd p ↔
    TurnComparable userBegin userEnd p ∧ ScanMeets userBegin userEnd p ∧ endsBehind userEnd p := by
  constructor
  · rintro ⟨⟨low, high, hlow, hlow', hhigh, hhigh'⟩, hend⟩
    obtain ⟨hlong, rfl⟩ := viewCmp_eq_some.mp hlow
    obtain ⟨hlong', rfl⟩ := viewCmp_eq_some.mp hhigh
    exact ⟨⟨hlong, fun _ => hlong'⟩, ⟨hlow', hhigh'⟩, hend⟩
  · rintro ⟨⟨hlong, hhigh⟩, ⟨hlow', hhigh'⟩, hend⟩
    exact ⟨⟨_, _, viewCmp_eq_some.mpr ⟨hlong, rfl⟩, hlow',
      viewCmp_eq_some.mpr ⟨hhigh hlow', rfl⟩, hhigh'⟩, hend⟩

theorem overlapTurn_skip :
    overlapTurn userBegin userEnd p = some .skip ↔ Misses userBegin userEnd p := by
  rw [misses_iff]
  constructor
  · intro h
    have hcomp := comparable_of_overlapTurn h
    refine ⟨hcomp, fun hmeets => ?_⟩
    rw [overlapTurn_of_comparable hcomp, if_pos hmeets] at h
    split at h
    · cases h
    · cases h
  · rintro ⟨hcomp, hmisses⟩
    rw [overlapTurn_of_comparable hcomp, if_neg hmisses]

theorem overlapTurn_restart {b e : Bytes} :
    overlapTurn userBegin userEnd p = some (.restart b e) ↔
      Widens userBegin userEnd p ∧ b = userBegin ∧ e = p.largest.extractUserKey := by
  rw [widens_iff]
  constructor
  · intro h
    have hcomp := comparable_of_overlapTurn h
    rw [overlapTurn_of_comparable hcomp] at h
    split at h
    · next hmeets =>
      split at h
      · next hend =>
        cases h
        exact ⟨⟨hcomp, hmeets, hend⟩, rfl, rfl⟩
      · cases h
    · cases h
  · rintro ⟨⟨hcomp, hmeets, hend⟩, rfl, rfl⟩
    rw [overlapTurn_of_comparable hcomp, if_pos hmeets, if_pos hend]

/-! ## When it finds nothing -/

theorem scanned_turn {p : FileMate} (h : v.turnFile i = some (some p)) :
    v.scanned i = (v.scanned (i + 1)).map (p :: ·) := by
  rw [scanned]
  split <;> simp_all

theorem scanned_undefined (h : v.turnFile i = none) : v.scanned i = none := by
  rw [scanned]
  split <;> simp_all

theorem scanned_end (h : v.turnFile i = some none) : v.scanned i = some [] := by
  rw [scanned]
  split <;> simp_all

/-- Turns that miss their files leave the inputs as they are. -/
theorem overlapFrom_of_misses (hscan : v.scanned i = some files)
    (hmiss : ∀ p ∈ files, Misses userBegin userEnd p) :
    v.overlapFrom i userBegin userEnd inputs = some inputs := by
  fun_induction scanned v i generalizing files with
  | case1 => cases hscan
  | case2 i hfile => exact overlapFrom_end hfile
  | case3 i p hfile ih =>
    obtain ⟨rest, hrest, rfl⟩ := Option.map_eq_some_iff.mp hscan
    obtain ⟨hp, hmiss⟩ := List.forall_mem_cons.mp hmiss
    rw [overlapFrom_turn hfile, overlapTurn_skip.mpr hp]
    exact ih hrest hmiss

/-- The turns from `i` on to `j` have a file each. -/
def Reaches (v : Version) (i j : Nat) : Prop :=
  ∀ k, i ≤ k → k < j → ∃ q, v.turnFile k = some (some q)

theorem Reaches.succ (h : v.Reaches i j) (hfile : v.turnFile j = some (some p)) :
    v.Reaches i (j + 1) := by
  intro k hik hkj
  rcases (Nat.le_of_lt_succ hkj).eq_or_lt with rfl | hlt
  · exact ⟨p, hfile⟩
  · exact h k hik hlt

/-- What is left to look at in a later turn. -/
theorem Reaches.scanned_suffix (hbefore : v.Reaches i j) (hij : i ≤ j)
    (hscan : v.scanned i = some files) :
    ∃ suffix, v.scanned j = some suffix ∧ suffix <:+ files := by
  induction j, hij using Nat.le_induction with
  | base => exact ⟨files, hscan, List.suffix_rfl⟩
  | succ j hij ih =>
    obtain ⟨q, hq⟩ := hbefore j hij (Nat.lt_succ_self j)
    obtain ⟨suffix, hsuffix, htail⟩ := ih fun k hk hk' => hbefore k hk (Nat.lt_succ_of_lt hk')
    rw [scanned_turn hq] at hsuffix
    obtain ⟨rest, hrest, rfl⟩ := Option.map_eq_some_iff.mp hsuffix
    exact ⟨rest, hrest, (List.suffix_cons q rest).trans htail⟩

/-- A file that is looked at in a later turn. -/
theorem mem_scanned (hscan : v.scanned i = some files) (hij : i ≤ j) (hbefore : v.Reaches i j)
    (hfile : v.turnFile j = some (some p)) : p ∈ files := by
  obtain ⟨suffix, hsuffix, htail⟩ := hbefore.scanned_suffix hij hscan
  rw [scanned_turn hfile] at hsuffix
  obtain ⟨rest, -, rfl⟩ := Option.map_eq_some_iff.mp hsuffix
  exact htail.subset List.mem_cons_self

/-- A file that widens the range meets the wider range. -/
theorem not_misses_of_widens (h : Widens userBegin userEnd p) :
    ¬ Misses userBegin p.largest.extractUserKey p := by
  obtain ⟨-, hmeets, hend⟩ := widens_iff.mp h
  intro hmisses
  refine (misses_iff.mp hmisses).2 ⟨hmeets.1, fun hlt => hmeets.2 ?_⟩
  exact TransCmp.lt_trans (OrientedCmp.lt_of_gt (of_decide_eq_true hend)) hlt

/-- From turn 1 on nothing is found only if every file is missed: the file of the last restart would be
looked at once more. -/
theorem misses_of_overlapFrom (hi : 1 ≤ i) (hbefore : v.Reaches 1 i)
    (h : v.overlapFrom i userBegin userEnd inputs = some []) :
    inputs = [] ∧ ∃ files, v.scanned i = some files ∧
      ∀ p ∈ files, Misses userBegin userEnd p := by
  fun_induction overlapFrom v i userBegin userEnd inputs with
  | case1 => cases h
  | case2 i _ _ _ hend =>
    exact ⟨Option.some.inj h, [], scanned_end hend, fun _ hp => absurd hp List.not_mem_nil⟩
  | case3 => cases h
  | case4 i userBegin userEnd inputs p hfile hturn ih =>
    obtain ⟨hnil, files, hscan, hmiss⟩ := ih (Nat.le_succ_of_le hi) (hbefore.succ hfile) h
    refine ⟨hnil, p :: files, by rw [scanned_turn hfile, hscan]; rfl, ?_⟩
    exact List.forall_mem_cons.mpr ⟨overlapTurn_skip.mp hturn, hmiss⟩
  | case5 i userBegin userEnd inputs p hfile hturn ih =>
    have hnil := (ih (Nat.le_succ_of_le hi) (hbefore.succ hfile) h).1
    simp at hnil
  | case6 i userBegin userEnd inputs p hfile b e hturn ih =>
    obtain ⟨hwidens, rfl, rfl⟩ := overlapTurn_restart.mp hturn
    have hstart : v.Reaches 1 1 := fun k hk hk' => by omega
    obtain ⟨-, files, hscan, hmiss⟩ := ih le_rfl hstart h
    exact absurd (hmiss p (mem_scanned hscan hi hbefore hfile)) (not_misses_of_widens hwidens)

theorem overlapFrom_one_eq_nil : v.overlapFrom 1 userBegin userEnd [] = some [] ↔
    ∃ files, v.scanned 1 = some files ∧ ∀ p ∈ files, Misses userBegin userEnd p :=
  ⟨fun h => (misses_of_overlapFrom le_rfl (fun k hk hk' => by omega) h).2,
    fun ⟨_, hscan, hmiss⟩ => overlapFrom_of_misses hscan hmiss⟩

/-- When `GetOverlappFiles` returns no file. -/
theorem getOverlappFiles_eq_nil {level : Nat} {smallest largest : InternalKey} :
    v.getOverlappFiles level smallest largest = some [] ↔ v.FindsNone smallest largest := by
  rw [getOverlappFiles, FindsNone]
  generalize smallest.extractUserKey = userBegin
  generalize largest.extractUserKey = userEnd
  rcases hfile : v.turnFile 0 with - | - | p
  · rw [overlapFrom_undefined hfile, scanned_undefined hfile]
    exact iff_of_false nofun nofun
  · rw [overlapFrom_end hfile, scanned_end hfile]
    exact iff_of_true rfl ⟨[], rfl, .inl fun _ hp => absurd hp List.not_mem_nil⟩
  · rw [overlapFrom_turn hfile, scanned_turn hfile]
    have hfirst : (∃ files, (v.scanned (0 + 1)).map (p :: ·) = some files ∧
        ((∀ q ∈ files, Misses userBegin userEnd q) ∨ ∃ q rest, files = q :: rest ∧
          Widens userBegin userEnd q ∧ ∀ r ∈ rest, Misses userBegin q.largest.extractUserKey r)) ↔
        Misses userBegin userEnd p ∧ (∃ files, v.scanned 1 = some files ∧
          ∀ q ∈ files, Misses userBegin userEnd q) ∨
        Widens userBegin userEnd p ∧ ∃ files, v.scanned 1 = some files ∧
          ∀ q ∈ files, Misses userBegin p.largest.extractUserKey q := by
      cases v.scanned 1 <;> simp
    have hwidens : Widens userBegin userEnd p ↔
        overlapTurn userBegin userEnd p = some (.restart userBegin p.largest.extractUserKey) :=
      ⟨fun h => overlapTurn_restart.mpr ⟨h, rfl, rfl⟩, fun h => (overlapTurn_restart.mp h).1⟩
    rw [hfirst, ← overlapFrom_one_eq_nil, ← overlapFrom_one_eq_nil, ← overlapTurn_skip, hwidens]
    rcases hturn : overlapTurn userBegin userEnd p with - | - | - | ⟨b, e⟩
    · simp
    · simp
    · have hpush : v.overlapFrom 1 userBegin userEnd [⟨0, p⟩] ≠ some [] := fun h => by
        have hnil := (misses_of_overlapFrom le_rfl (fun k hk hk' => by omega) h).1
        simp at hnil
      simp [hpush]
    · obtain ⟨-, rfl, rfl⟩ := overlapTurn_restart.mp hturn
      simp

end Version

/-! ## When the inputs are closed -/

namespace VersionSet
variable {vs : VersionSet} {maxFileSize : Nat} {level : InputLevel} {inputs0 : List FilePtr}

/-- `PickCompaction` starts with files that are found to meet no others, and they meet none of the next
level, nor of level 0 if they are from there. -/
def StartsClosed (vs : VersionSet) (level : InputLevel) : Prop :=
  ∃ inputs0 smallest largest, vs.startInputs level = some inputs0 ∧
    getRange inputs0 = some (smallest, largest) ∧ vs.nowversion.FindsNone smallest largest ∧
    (∀ f ∈ vs.nowversion.files level.succ, ¬ MeetsSpan inputs0 f) ∧
    (level.val = 0 → ∀ f ∈ vs.nowversion.files 0, MeetsSpan inputs0 f → ⟨0, f⟩ ∈ inputs0)

theorem startsClosed_of_closed {c : Compaction} {vs' : VersionSet}
    (hpick : vs.pickCompactionAt maxFileSize level = some (c, vs')) (hclosed : c.Closed vs.nowversion) :
    vs.StartsClosed level := by
  obtain ⟨inputs0, hstart, hsetup⟩ := Option.bind_eq_some_iff.mp hpick
  obtain ⟨hset, smallest, largest, inputs1, hrange, hscan, hinputs⟩ := setupOtherInputs_cases hsetup
  have hlevel : c.level = level := hset.level
  rcases hinputs with ⟨rfl, h0, h1⟩ | ⟨-, hne, hzero⟩
  · have h0 : c.inputs0 = inputs0 := h0
    refine ⟨inputs0, smallest, largest, hstart, hrange, Version.getOverlappFiles_eq_nil.mp hscan,
      fun f hf hmeets => ?_, fun hl f hf hmeets => ?_⟩
    · rw [← hlevel] at hf
      rw [← h0] at hmeets
      exact List.not_mem_nil (h1 ▸ hclosed.below f hf hmeets)
    · rw [← hlevel] at hl
      rw [← h0] at hmeets ⊢
      exact hclosed.beside hl f hf hmeets
  · -- what is found is of level 0, and the level below that of the inputs is not
    obtain ⟨p, hp⟩ := List.exists_mem_of_ne_nil _ hne
    have hcontra : c.level.succ = 0 := (hclosed.level1 p hp).1.symm.trans (hzero p hp).1
    exact absurd hcontra (Fin.succ_ne_zero c.level)

theorem closed_of_startsClosed (h : vs.StartsClosed level) :
    ∃ c vs', vs.pickCompactionAt maxFileSize level = some (c, vs') ∧ c.Closed vs.nowversion := by
  obtain ⟨inputs0, smallest, largest, hstart, hrange, hnone, hbelow, hbeside⟩ := h
  have hpick : vs.pickCompactionAt maxFileSize level =
      vs.setupOtherInputs { level, maxOutputFileSize := maxFileSize, inputs0 } := by
    rw [pickCompactionAt, hstart]
    rfl
  have hnil := @Version.getOverlappFiles_eq_nil vs.nowversion (level.val + 1) smallest largest
  rw [hpick, setupOtherInputs_of_nil hrange (hnil.mpr hnone)]
  have hlevel0 := of_mem_startInputs hstart
  split
  · exact ⟨_, _, rfl, hlevel0, fun _ hp => absurd hp List.not_mem_nil,
      fun f hf hmeets => absurd hmeets (hbelow f hf), hbeside⟩
  · exact ⟨_, _, rfl, hlevel0, fun _ hp => absurd hp List.not_mem_nil,
      fun f hf hmeets => absurd hmeets (hbelow f hf), hbeside⟩

theorem startsClosed_of_picksClosed (hneeds : vs.needsCompaction = true)
    (h : vs.PicksClosed maxFileSize) :
    ∃ level : InputLevel, vs.nowversion.compactionLevel = level.val ∧ vs.StartsClosed level := by
  obtain ⟨picked, vs', hpick, hclosed⟩ := h
  cases picked with
  | none =>
    rw [pickCompaction, if_pos hneeds] at hpick
    split at hpick
    · obtain ⟨_, -, h⟩ := Option.map_eq_some_iff.mp hpick
      cases h
    · cases hpick
  | some c =>
    obtain ⟨hlevel, hpick⟩ := pickCompaction_eq_some hpick
    exact ⟨c.level, hlevel, startsClosed_of_closed hpick (hclosed c rfl)⟩

theorem picksClosed_of_startsClosed (hneeds : vs.needsCompaction = true)
    (hlevel : vs.nowversion.compactionLevel = level.val) (h : vs.StartsClosed level) :
    vs.PicksClosed maxFileSize := by
  obtain ⟨c, vs', hpick, hclosed⟩ := @closed_of_startsClosed vs maxFileSize level h
  refine ⟨some c, vs', ?_, fun d hd => Option.some.inj hd ▸ hclosed⟩
  have hrange : 0 ≤ vs.nowversion.compactionLevel ∧
      vs.nowversion.compactionLevel < kNumLevels - 1 := by
    have := level.isLt
    omega
  have hsame : (⟨vs.nowversion.compactionLevel.toNat, by omega⟩ : InputLevel) = level :=
    Fin.ext (by simp [hlevel])
  rw [pickCompaction, if_pos hneeds, dif_pos hrange, hsame, hpick]
  rfl

/-- The compaction that is picked is closed when it starts closed, and there may be none. -/
theorem picksClosed_iff : vs.PicksClosed maxFileSize ↔
    (vs.needsCompaction = true → ∃ level : InputLevel,
      vs.nowversion.compactionLevel = level.val ∧ vs.StartsClosed level) := by
  by_cases hneeds : vs.needsCompaction = true
  · constructor
    · exact fun h _ => startsClosed_of_picksClosed hneeds h
    · intro h
      obtain ⟨level, hlevel, hstarts⟩ := h hneeds
      exact picksClosed_of_startsClosed hneeds hlevel hstarts
  · refine iff_of_true ⟨none, vs, ?_, nofun⟩ fun h => absurd h hneeds
    rw [pickCompaction, if_neg hneeds]

/-- A level 1 at its limit, whose file meets the one of level 2. -/
def meetingTables : VersionSet where
  nowversion :=
    { files := fun level =>
        if level = 1 then
          [⟨3, 10485760, .new [1, 0, 0, 0, 0, 0, 0, 0] 3 .value, .new [3, 0, 0, 0, 0, 0, 0, 0] 4 .value⟩]
        else if level = 2 then
          [⟨4, 100, .new [2, 0, 0, 0, 0, 0, 0, 0] 1 .value, .new [4, 0, 0, 0, 0, 0, 0, 0] 2 .value⟩]
        else [],
      compactionScore := 1, compactionLevel := 1 }

/-- `GetOverlappFiles` looks for the file of level 2 at level 0. -/
theorem not_picksClosed : ¬ meetingTables.PicksClosed (2 * 1024 * 1024) := by
  intro h
  obtain ⟨level, hlevel, inputs0, smallest, largest, hstart, -, -, hbelow, -⟩ :=
    startsClosed_of_picksClosed (by decide) h
  obtain rfl : level = ⟨1, by decide⟩ := Fin.ext (Int.ofNat.inj hlevel).symm
  have hinputs : inputs0 = [⟨1, 3, 10485760, .new [1, 0, 0, 0, 0, 0, 0, 0] 3 .value,
      .new [3, 0, 0, 0, 0, 0, 0, 0] 4 .value⟩] := by
    rw [startInputs_of_pos (by decide)] at hstart
    exact (Option.some.inj hstart).symm
  subst hinputs
  exact hbelow _ List.mem_cons_self (by decide)

end VersionSet
end Yubindb
