import Yubindb.Db.CompactionInputs
import Yubindb.Theory.Widening

/-!
# The files that overlap a range

What `GetOverlappFiles` is for, and when it does it. The loop only ever widens the end of the range,
and with `cmp`; what it goes over is a front of level 0, and a restart leaves the first file out.
-/

namespace Yubindb
open Std Widening

/-! ## What it is for -/

/-- The user keys of the file meet the range, in the order of their bytes. -/
def FileMate.Meets (range : Bytes × Bytes) (f : FileMate) : Prop :=
  (compare range.1 f.largest.extractUserKey).isLE ∧
    (compare f.smallest.extractUserKey range.2).isLE

instance (range : Bytes × Bytes) (f : FileMate) : Decidable (f.Meets range) :=
  inferInstanceAs (Decidable (_ ∧ _))

/-- The range, and that of the file. -/
def FileMate.widen (range : Bytes × Bytes) (f : FileMate) : Bytes × Bytes :=
  (if compare f.smallest.extractUserKey range.1 = .lt then f.smallest.extractUserKey else range.1,
    if compare f.largest.extractUserKey range.2 = .gt then f.largest.extractUserKey else range.2)

/-- The files are in the order of their user keys, and no two share one. -/
structure FilesApart (files : List FileMate) : Prop where
  range : ∀ f ∈ files, (compare f.smallest.extractUserKey f.largest.extractUserKey).isLE
  apart : files.Pairwise fun f g =>
    compare f.largest.extractUserKey g.smallest.extractUserKey = .lt

instance (files : List FileMate) : Decidable (FilesApart files) :=
  decidable_of_iff (_ ∧ _) ⟨fun h => ⟨h.1, h.2⟩, fun h => ⟨h.range, h.apart⟩⟩

theorem filesApart_meetingTables :
    ∀ level, FilesApart (VersionSet.meetingTables.nowversion.files level) := by
  decide

namespace Version
variable {v : Version} {level : Level} {i : Nat} {userBegin userEnd : Bytes}
  {smallest largest : InternalKey} {inputs fs : List FilePtr} {files rest : List FileMate}
  {p q f : FileMate}

/-- The file of the level overlaps the range: it meets it, or at level 0 what it is widened to. -/
def Overlaps (v : Version) (level : Level) (range : Bytes × Bytes) (f : FileMate) : Prop :=
  if level = 0 then Reached FileMate.Meets FileMate.widen (v.files 0) range f
  else f.Meets range

/-- `GetOverlappFiles` returns, and what it returns are the files of the level that overlap the
range, none of them more often than the level lists it. -/
def FindsOverlapping (v : Version) (level : Level) (smallest largest : InternalKey) : Prop :=
  ∃ inputs, v.getOverlappFiles level smallest largest = some inputs ∧
    inputs.Sublist ((v.files level).map (FilePtr.mk level)) ∧
    ∀ f ∈ v.files level, ⟨level, f⟩ ∈ inputs ↔
      v.Overlaps level (smallest.extractUserKey, largest.extractUserKey) f

/-! ## The order of the loop -/

/-- The end behind a file that meets the range. -/
def scanWiden (userEnd : Bytes) (p : FileMate) : Bytes :=
  if endsBehind userEnd p then p.largest.extractUserKey else userEnd

theorem endsBehind_iff : endsBehind userEnd p = true ↔ cmp p.largest.extractUserKey userEnd = .gt :=
  decide_eq_true_iff

theorem increasing_scanWiden (userBegin : Bytes) :
    Increasing (fun e e' => (cmp e e').isLE) (ScanMeets userBegin) scanWiden where
  refl _ := ReflCmp.isLE_rfl
  trans := TransCmp.isLE_trans
  le_widen e f := by
    rw [scanWiden]
    split
    · next hend => exact Ordering.isLE_of_eq_lt (OrientedCmp.lt_of_gt (endsBehind_iff.mp hend))
    · exact ReflCmp.isLE_rfl
  meets := by
    rintro e e' f hle ⟨hlow, hhigh⟩
    refine ⟨hlow, fun hlt => hhigh ?_⟩
    exact TransCmp.lt_of_isLE_of_lt hle hlt
  widen := by
    intro e e' f hle
    rw [scanWiden, scanWiden]
    split
    · next hend =>
      split
      · exact ReflCmp.isLE_rfl
      · next hend' =>
        rw [endsBehind_iff] at hend'
        exact Ordering.ne_gt_iff_isLE.mp hend'
    · next hend =>
      split
      · next hend' =>
        refine TransCmp.isLE_trans hle ?_
        exact Ordering.isLE_of_eq_lt (OrientedCmp.lt_of_gt (endsBehind_iff.mp hend'))
      · exact hle

theorem scanWiden_eq_self : scanWiden userEnd p = userEnd ↔ ¬ endsBehind userEnd p := by
  rw [scanWiden]
  split
  · next hend =>
    refine iff_of_false (fun heq => ?_) (fun h => h hend)
    rw [endsBehind_iff, heq, @ReflCmp.compare_self _ cmp] at hend
    cases hend
  · next hend => exact iff_of_true rfl hend

/-! ## The loop -/

/-- The pointers that the loop pushes for these files. -/
def taken (userBegin userEnd : Bytes) (files : List FileMate) : List FilePtr :=
  (files.filter fun p => ScanMeets userBegin userEnd p).map (FilePtr.mk 0)

/-- The file meets the range and ends behind it, in the order of the loop. -/
def Restarts (userBegin userEnd : Bytes) (p : FileMate) : Prop :=
  ScanMeets userBegin userEnd p ∧ endsBehind userEnd p

instance : Decidable (Restarts userBegin userEnd p) := inferInstanceAs (Decidable (_ ∧ _))

theorem closed_iff : Closed (ScanMeets userBegin) scanWiden files userEnd ↔
    ∀ p ∈ files, ¬ Restarts userBegin userEnd p := by
  refine forall₂_congr fun p _ => ?_
  rw [scanWiden_eq_self, Restarts, not_and]

theorem scanned_eq_cons (h : v.scanned i = some (p :: files)) :
    v.turnFile i = some (some p) ∧ v.scanned (i + 1) = some files := by
  rcases hfile : v.turnFile i with - | - | q
  · rw [scanned_undefined hfile] at h
    cases h
  · rw [scanned_end hfile] at h
    cases h
  · rw [scanned_turn hfile] at h
    obtain ⟨rest, hrest, heq⟩ := Option.map_eq_some_iff.mp h
    obtain ⟨rfl, rfl⟩ := List.cons.inj heq
    exact ⟨rfl, hrest⟩

theorem turnFile_of_scanned_nil (h : v.scanned i = some []) : v.turnFile i = some none := by
  rcases hfile : v.turnFile i with - | - | q
  · rw [scanned_undefined hfile] at h
    cases h
  · rfl
  · rw [scanned_turn hfile] at h
    obtain ⟨rest, -, heq⟩ := Option.map_eq_some_iff.mp h
    cases heq

/-- A turn that does not restart the loop comes to the next one. -/
theorem overlapFrom_succ (hfile : v.turnFile i = some (some p))
    (hp : TurnComparable userBegin userEnd p) (hstays : ¬ Restarts userBegin userEnd p)
    (inputs : List FilePtr) :
    v.overlapFrom i userBegin userEnd inputs =
      v.overlapFrom (i + 1) userBegin userEnd (inputs ++ taken userBegin userEnd [p]) := by
  rw [overlapFrom_turn hfile, overlapTurn_of_comparable hp, Option.bind_some]
  by_cases hmeets : ScanMeets userBegin userEnd p
  · rw [if_pos hmeets, if_neg fun hend => hstays ⟨hmeets, hend⟩]
    simp [taken, hmeets]
  · rw [if_neg hmeets]
    simp [taken, hmeets]

theorem taken_cons : taken userBegin userEnd (p :: files) =
    taken userBegin userEnd [p] ++ taken userBegin userEnd files := by
  rw [taken, taken, taken, ← List.map_append, ← List.filter_append, List.singleton_append]

/-- Without a restart the loop takes what meets the range. -/
theorem overlapFrom_of_closed (hscan : v.scanned i = some files)
    (hcomp : ∀ p ∈ files, TurnComparable userBegin userEnd p)
    (hclosed : ∀ p ∈ files, ¬ Restarts userBegin userEnd p) :
    v.overlapFrom i userBegin userEnd inputs = some (inputs ++ taken userBegin userEnd files) := by
  induction files generalizing i inputs with
  | nil =>
    rw [overlapFrom_end (turnFile_of_scanned_nil hscan), taken, List.filter_nil, List.map_nil,
      List.append_nil]
  | cons p files ih =>
    obtain ⟨hfile, hscan⟩ := scanned_eq_cons hscan
    obtain ⟨hp, hcomp⟩ := List.forall_mem_cons.mp hcomp
    obtain ⟨hstays, hclosed⟩ := List.forall_mem_cons.mp hclosed
    rw [overlapFrom_succ hfile hp hstays, ih hscan hcomp hclosed, List.append_assoc, ← taken_cons]

/-- The first file that restarts the loop makes it forget its inputs. -/
theorem overlapFrom_of_restarts (hscan : v.scanned i = some files)
    (hcomp : ∀ p ∈ files, TurnComparable userBegin userEnd p)
    (hrestarts : ∃ p ∈ files, Restarts userBegin userEnd p) :
    ∃ p ∈ files, Restarts userBegin userEnd p ∧
      ∀ inputs, v.overlapFrom i userBegin userEnd inputs =
        v.overlapFrom 1 userBegin p.largest.extractUserKey [] := by
  induction files generalizing i with
  | nil =>
    obtain ⟨p, hp, -⟩ := hrestarts
    cases hp
  | cons p files ih =>
    obtain ⟨hfile, hscan⟩ := scanned_eq_cons hscan
    obtain ⟨hp, hcomp⟩ := List.forall_mem_cons.mp hcomp
    by_cases hfirst : Restarts userBegin userEnd p
    · refine ⟨p, List.mem_cons_self, hfirst, fun inputs => ?_⟩
      rw [overlapFrom_turn hfile, overlapTurn_of_comparable hp, Option.bind_some, if_pos hfirst.1,
        if_pos hfirst.2]
    · obtain ⟨q, hq, hrestart⟩ := hrestarts
      have hlater : ∃ q ∈ files, Restarts userBegin userEnd q := by
        rcases List.mem_cons.mp hq with rfl | hq
        · exact absurd hrestart hfirst
        · exact ⟨q, hq, hrestart⟩
      obtain ⟨q, hq, hrestart, heq⟩ := ih hscan hcomp hlater
      refine ⟨q, List.mem_cons_of_mem p hq, hrestart, fun inputs => ?_⟩
      rw [overlapFrom_succ hfile hp hfirst, heq]

theorem TurnComparable.of_restarts (h : TurnComparable userBegin userEnd q)
    (hp : TurnComparable userBegin userEnd p) :
    TurnComparable userBegin p.largest.extractUserKey q :=
  ⟨h.1, fun hmeets => ⟨hp.1.2, (h.2 hmeets).2⟩⟩

/-- From turn 1 on the loop widens the end until no file does so any more, and takes what meets the
range then. -/
theorem overlapFrom_one (hscan : v.scanned 1 = some rest)
    (hcomp : ∀ p ∈ rest, TurnComparable userBegin userEnd p) :
    ∃ last, Widened (ScanMeets userBegin) scanWiden rest userEnd last ∧
      Closed (ScanMeets userBegin) scanWiden rest last ∧
      v.overlapFrom 1 userBegin userEnd [] = some (taken userBegin last rest) := by
  -- a restart leaves fewer files that end behind the range
  induction hn : rest.countP (endsBehind userEnd) using Nat.strong_induction_on
    generalizing userEnd with
  | _ n ih =>
    by_cases hrestarts : ∃ p ∈ rest, Restarts userBegin userEnd p
    · obtain ⟨p, hp, hrestart, heq⟩ := overlapFrom_of_restarts hscan hcomp hrestarts
      have hlt := countP_endsBehind_lt hp hrestart.2
      obtain ⟨last, hwidened, hclosed, hrun⟩ :=
        ih _ (hn ▸ hlt) (fun q hq => (hcomp q hq).of_restarts (hcomp p hp)) rfl
      have hstep : Widened (ScanMeets userBegin) scanWiden rest userEnd (scanWiden userEnd p) :=
        .single hp hrestart.1
      rw [scanWiden, if_pos hrestart.2] at hstep
      exact ⟨last, hstep.trans hwidened, hclosed, (heq []).trans hrun⟩
    · have hstays : ∀ p ∈ rest, ¬ Restarts userBegin userEnd p := fun p hp h => hrestarts ⟨p, hp, h⟩
      exact ⟨userEnd, .refl, closed_iff.mpr hstays, overlapFrom_of_closed hscan hcomp hstays⟩

theorem mem_taken :
    ⟨0, f⟩ ∈ taken userBegin userEnd files ↔ f ∈ files ∧ ScanMeets userBegin userEnd f := by
  simp [taken]

theorem taken_sublist : (taken userBegin userEnd files).Sublist (files.map (FilePtr.mk 0)) :=
  List.filter_sublist.map _

/-- What the loop takes of the files that it looks at: the first one only if there is no restart at
all, and of the others those that are reached by widening the end. -/
def Taken (userBegin userEnd : Bytes) : List FileMate → FileMate → Prop
  | [], _ => False
  | p :: rest, f =>
    f = p ∧ ScanMeets userBegin userEnd p ∧ (∀ q ∈ p :: rest, ¬ Restarts userBegin userEnd q) ∨
      Reached (ScanMeets userBegin) scanWiden rest
        (if Restarts userBegin userEnd p then p.largest.extractUserKey else userEnd) f

/-- Without inputs, the loop takes from turn 1 on what is reached by widening the end. -/
theorem overlapFrom_one_reached (hscan : v.scanned 1 = some rest)
    (hcomp : ∀ p ∈ rest, TurnComparable userBegin userEnd p) :
    ∃ fs, v.overlapFrom 1 userBegin userEnd [] = some fs ∧ fs.Sublist (rest.map (FilePtr.mk 0)) ∧
      ∀ f, ⟨0, f⟩ ∈ fs ↔ Reached (ScanMeets userBegin) scanWiden rest userEnd f := by
  obtain ⟨last, hwidened, hclosed, hrun⟩ := overlapFrom_one hscan hcomp
  refine ⟨_, hrun, taken_sublist, fun f => mem_taken.trans ?_⟩
  constructor
  · rintro ⟨hf, hmeets⟩
    exact (reached_iff_of_closed (increasing_scanWiden _) hwidened hclosed hf).mpr hmeets
  · intro h
    exact ⟨h.1, (reached_iff_of_closed (increasing_scanWiden _) hwidened hclosed h.1).mp h⟩

/-- What `GetOverlappFiles` returns when it is defined. -/
theorem overlapFrom_zero (hscan : v.scanned 0 = some files)
    (hcomp : ∀ p ∈ files, TurnComparable userBegin userEnd p) :
    ∃ fs, v.overlapFrom 0 userBegin userEnd [] = some fs ∧ fs.Sublist (files.map (FilePtr.mk 0)) ∧
      ∀ f, ⟨0, f⟩ ∈ fs ↔ Taken userBegin userEnd files f := by
  cases files with
  | nil =>
    exact ⟨[], overlapFrom_end (turnFile_of_scanned_nil hscan), .slnil,
      fun f => iff_of_false List.not_mem_nil id⟩
  | cons p rest =>
    obtain ⟨hfile, hrest⟩ := scanned_eq_cons hscan
    obtain ⟨hp, hcomp'⟩ := List.forall_mem_cons.mp hcomp
    by_cases hfirst : Restarts userBegin userEnd p
    · -- the first file moves the end, and is not looked at again
      obtain ⟨fs, hrun, hsub, hmem⟩ := overlapFrom_one_reached hrest fun q hq =>
        (hcomp' q hq).of_restarts hp
      refine ⟨fs, ?_, hsub.cons _, fun f => ?_⟩
      · rw [overlapFrom_turn hfile, overlapTurn_of_comparable hp, Option.bind_some, if_pos hfirst.1,
          if_pos hfirst.2, ← hrun]
      · rw [hmem, Taken, if_pos hfirst]
        exact ⟨.inr, fun h => h.resolve_left fun h => h.2.2 p List.mem_cons_self hfirst⟩
    · by_cases hlater : ∃ q ∈ rest, Restarts userBegin userEnd q
      · -- a later one does, and the first is forgotten
        obtain ⟨fs, hrun, hsub, hmem⟩ := overlapFrom_one_reached hrest hcomp'
        obtain ⟨q, hq, hrestart, heq⟩ := overlapFrom_of_restarts hrest hcomp' hlater
        refine ⟨fs, ?_, hsub.cons _, fun f => ?_⟩
        · rw [overlapFrom_succ hfile hp hfirst, heq, ← heq [], hrun]
        · rw [hmem, Taken, if_neg hfirst]
          exact ⟨.inr, fun h => h.resolve_left fun h =>
            h.2.2 q (List.mem_cons_of_mem p hq) hrestart⟩
      · have hstays : ∀ q ∈ rest, ¬ Restarts userBegin userEnd q := fun q hq h => hlater ⟨q, hq, h⟩
        have hall : ∀ q ∈ p :: rest, ¬ Restarts userBegin userEnd q :=
          List.forall_mem_cons.mpr ⟨hfirst, hstays⟩
        refine ⟨_, overlapFrom_of_closed hscan hcomp hall, taken_sublist, fun f => ?_⟩
        rw [List.nil_append, mem_taken, Taken, if_neg hfirst, List.mem_cons]
        constructor
        · rintro ⟨rfl | hf, hmeets⟩
          · exact .inl ⟨rfl, hmeets, hall⟩
          · exact .inr (reached_of_meets hf hmeets)
        · rintro (⟨rfl, hmeets, -⟩ | h)
          · exact ⟨.inl rfl, hmeets⟩
          · exact ⟨.inr h.1, (reached_iff_of_closed (increasing_scanWiden _) .refl
              (closed_iff.mpr hstays) h.1).mp h⟩

/-! ## What it compares -/

theorem scanned_cons (hfile : v.turnFile i = some (some p))
    (hscan : v.scanned (i + 1) = some files) : v.scanned i = some (p :: files) := by
  rw [scanned_turn hfile, hscan]
  rfl

/-- When the loop returns, it has looked at every file, and compared it with the end that it began
with or one that it has moved to. -/
theorem comparable_of_overlapFrom (hbefore : v.Reaches 1 i)
    (h : v.overlapFrom i userBegin userEnd inputs = some fs) :
    ∃ files, v.scanned i = some files ∧ ∀ p ∈ files, TurnComparable userBegin userEnd p := by
  fun_induction overlapFrom v i userBegin userEnd inputs with
  | case1 => cases h
  | case2 i _ _ _ hend => exact ⟨[], scanned_end hend, List.forall_mem_nil _⟩
  | case3 => cases h
  | case4 i userBegin userEnd inputs p hfile hturn ih =>
    obtain ⟨files, hscan, hcomp⟩ := ih (hbefore.succ hfile) h
    exact ⟨p :: files, scanned_cons hfile hscan,
      List.forall_mem_cons.mpr ⟨comparable_of_overlapTurn hturn, hcomp⟩⟩
  | case5 i userBegin userEnd inputs p hfile hturn ih =>
    obtain ⟨files, hscan, hcomp⟩ := ih (hbefore.succ hfile) h
    exact ⟨p :: files, scanned_cons hfile hscan,
      List.forall_mem_cons.mpr ⟨comparable_of_overlapTurn hturn, hcomp⟩⟩
  | case6 i userBegin userEnd inputs p hfile b e hturn ih =>
    have hp := comparable_of_overlapTurn hturn
    obtain ⟨⟨⟨low, high, hlow, hlow', -⟩, -⟩, rfl, rfl⟩ := overlapTurn_restart.mp hturn
    have hend := (hp.2 (eq_of_viewCmp hlow ▸ hlow')).1
    have hstart : v.Reaches 1 1 := fun k hk hk' => by omega
    obtain ⟨files, hscan, hcomp⟩ := ih hstart h
    obtain ⟨suffix, hsuffix, htail⟩ :=
      (hbefore.succ hfile).scanned_suffix (Nat.le_add_left 1 i) hscan
    refine ⟨p :: suffix, scanned_cons hfile hsuffix, List.forall_mem_cons.mpr ⟨hp, fun q hq => ?_⟩⟩
    obtain ⟨hlong, hmeets⟩ := hcomp q (htail.subset hq)
    exact ⟨hlong, fun hq => ⟨hend, (hmeets hq).2⟩⟩

theorem getElem?_of_turnFile (h : v.turnFile i = some (some p)) : (v.files 0)[i]? = some p := by
  rw [turnFile] at h
  split at h
  · split at h
    · obtain ⟨q, hq, heq⟩ := Option.map_eq_some_iff.mp h
      exact Option.some.inj heq ▸ hq
    · cases h
  · cases h

/-- The loop looks at a front of level 0. -/
theorem sublist_of_scanned (h : v.scanned i = some files) : files.Sublist ((v.files 0).drop i) := by
  induction files generalizing i with
  | nil => exact List.nil_sublist _
  | cons p files ih =>
    obtain ⟨hfile, hscan⟩ := scanned_eq_cons h
    rw [List.drop_eq_getElem?_toList_append, getElem?_of_turnFile hfile]
    exact (ih hscan).cons_cons p

/-! ## When it finds them -/

/-- Level 0 goes right when the files that the loop takes are those that are reached by widening
both ends. -/
def TakesReached (v : Version) (smallest largest : InternalKey) : Prop :=
  ∃ files, v.scanned 0 = some files ∧
    (∀ p ∈ files, TurnComparable smallest.extractUserKey largest.extractUserKey p) ∧
    ∀ f ∈ v.files 0,
      Taken smallest.extractUserKey largest.extractUserKey files f ↔
        v.Overlaps 0 (smallest.extractUserKey, largest.extractUserKey) f

/-- The other levels go right when there is nothing to find, and the loop over level 0 finds
nothing. -/
def MissesRightly (v : Version) (level : Level) (smallest largest : InternalKey) : Prop :=
  v.FindsNone smallest largest ∧
    ∀ f ∈ v.files level, ¬ f.Meets (smallest.extractUserKey, largest.extractUserKey)

theorem findsOverlapping_zero_iff : v.FindsOverlapping 0 smallest largest ↔
    v.TakesReached smallest largest := by
  constructor
  · rintro ⟨inputs, hrun, -, hmem⟩
    have hstart : v.Reaches 1 0 := fun k hk hk' => by omega
    obtain ⟨files, hscan, hcomp⟩ := comparable_of_overlapFrom hstart hrun
    obtain ⟨fs, hfs, -, htaken⟩ := overlapFrom_zero hscan hcomp
    obtain rfl : fs = inputs := Option.some.inj (hfs.symm.trans hrun)
    exact ⟨files, hscan, hcomp, fun f hf => (htaken f).symm.trans (hmem f hf)⟩
  · rintro ⟨files, hscan, hcomp, hreached⟩
    obtain ⟨fs, hfs, hsub, htaken⟩ := overlapFrom_zero hscan hcomp
    refine ⟨fs, hfs, hsub.trans ((sublist_of_scanned hscan).map _), fun f hf => ?_⟩
    exact (htaken f).trans (hreached f hf)

theorem findsOverlapping_succ_iff (hlevel : level ≠ 0) : v.FindsOverlapping level smallest largest ↔
    v.MissesRightly level smallest largest := by
  constructor
  · rintro ⟨inputs, hrun, hsub, hmem⟩
    -- what is found is of level 0
    obtain rfl : inputs = [] := by
      refine List.eq_nil_iff_forall_not_mem.mpr fun p hp => hlevel ?_
      obtain ⟨f, -, rfl⟩ := List.mem_map.mp (hsub.subset hp)
      exact (of_mem_getOverlappFiles hrun _ hp).1
    refine ⟨getOverlappFiles_eq_nil.mp hrun, fun f hf hmeets => ?_⟩
    have hoverlaps := (hmem f hf).not.mp List.not_mem_nil
    rw [Overlaps, if_neg hlevel] at hoverlaps
    exact hoverlaps hmeets
  · rintro ⟨hnone, hmisses⟩
    refine ⟨[], getOverlappFiles_eq_nil.mpr hnone, List.nil_sublist _, fun f hf => ?_⟩
    rw [Overlaps, if_neg hlevel]
    exact iff_of_false List.not_mem_nil (hmisses f hf)

/-- When `GetOverlappFiles` returns the files that overlap. -/
theorem findsOverlapping_iff (v : Version) (level : Level) (smallest largest : InternalKey) :
    v.FindsOverlapping level smallest largest ↔
      if level = 0 then v.TakesReached smallest largest
      else v.MissesRightly level smallest largest := by
  split
  · next hlevel => exact hlevel ▸ findsOverlapping_zero_iff
  · next hlevel => exact findsOverlapping_succ_iff hlevel

/-- The file of level 2 is looked for at level 0. -/
theorem not_findsOverlapping : ¬ ∀ (v : Version) (level : Level) (smallest largest : InternalKey),
    (∀ level, level ≠ 0 → FilesApart (v.files level)) →
      (compare smallest.extractUserKey largest.extractUserKey).isLE →
      v.FindsOverlapping level smallest largest := by
  intro h
  have hfinds := h VersionSet.meetingTables.nowversion 2 (.new [1, 0, 0, 0, 0, 0, 0, 0] 3 .value)
    (.new [3, 0, 0, 0, 0, 0, 0, 0] 4 .value) (fun level _ => filesApart_meetingTables level)
    (by decide)
  have hmisses := ((findsOverlapping_succ_iff (by decide)).mp hfinds).2
  exact hmisses _ List.mem_cons_self (by decide)

end Version
end Yubindb
