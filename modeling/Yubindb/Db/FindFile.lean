import Yubindb.Db.VersionGet

/-!
# `FindFile` in 32 bits

`FindFile` of `src/db/version_set.cpp` with the `uint32_t` positions that it computes with and the
`int` that it returns.
-/

namespace Yubindb
open Cursor Std

/-- `left` and `right` of `FindFile`. -/
structure FindRange where
  left : UInt32
  right : UInt32

/-- The loop of `FindFile`, with `right` behind it; `none` also where it would not end. -/
def FindRange.search (files : List FileMate) (key : Bytes) (r : FindRange) : Option UInt32 :=
  if r.left < r.right then do
    let mid := (r.left + r.right) / 2
    let f ← files[mid.toNat]?
    let order ← viewCmp f.largest.Key key
    let r : FindRange := if order = .lt then { r with left := mid + 1 } else { r with right := mid }
    r |>.search files key
  else some r.right
partial_fixpoint

/-- `FindFile`. -/
def findFileInt (files : List FileMate) (key : Bytes) : Option ℤ := do
  let r : FindRange := { left := 0, right := UInt32.ofNat files.length }
  let right ← r.search files key
  return right.toInt32.toInt

variable {files : List FileMate} {key : Bytes} {left right : UInt32}

/-- The positions do not wrap around below `2 ^ 31`. -/
theorem toNat_mid (hlt : left < right) (hright : right.toNat < 2 ^ 31) :
    ((left + right) / 2).toNat = (left.toNat + right.toNat) / 2 := by
  rw [UInt32.lt_iff_toNat_lt] at hlt
  rw [UInt32.toNat_div, UInt32.toNat_add, Nat.mod_eq_of_lt (by omega)]
  rfl

theorem toNat_mid_succ (hlt : left < right) (hright : right.toNat < 2 ^ 31) :
    ((left + right) / 2 + 1).toNat = (left.toNat + right.toNat) / 2 + 1 := by
  have hmid := toNat_mid hlt hright
  rw [UInt32.lt_iff_toNat_lt] at hlt
  rw [UInt32.toNat_add, hmid, UInt32.toNat_one, Nat.mod_eq_of_lt (by omega)]

/-- Below `2 ^ 31` files the loop computes what it would compute without bounds. -/
theorem FindRange.search_eq (hfiles : ∀ f ∈ files, 8 ≤ f.largest.Key.length) (hkey : 8 ≤ key.length)
    (hlen : right.toNat ≤ files.length) (hsize : files.length < 2 ^ 31) :
    FindRange.search files key ⟨left, right⟩ =
      some (UInt32.ofNat (findFileFrom files key left.toNat right.toNat)) := by
  induction hn : right.toNat - left.toNat using Nat.strongRecOn generalizing left right with
  | ind n ih =>
    rw [search, findFileFrom]
    by_cases hlt : left < right
    · have hmid := toNat_mid hlt (by omega)
      have hsucc := toNat_mid_succ hlt (by omega)
      have hlt' := UInt32.lt_iff_toNat_lt.mp hlt
      have hbound : (left.toNat + right.toNat) / 2 < files.length := by omega
      have hview : viewCmp files[(left.toNat + right.toNat) / 2].largest.Key key =
          some (cmp files[(left.toNat + right.toNat) / 2].largest.Key key) :=
        viewCmp_eq_some.mpr ⟨⟨hfiles _ (List.getElem_mem hbound), hkey⟩, rfl⟩
      rw [if_pos hlt, if_pos hlt']
      dsimp only
      rw [hmid, List.getElem?_eq_getElem hbound, Option.bind_eq_bind, Option.bind_some, hview,
        Option.bind_eq_bind, Option.bind_some, Option.any_some]
      simp only [decide_eq_true_eq]
      split
      · rw [ih _ (by omega) hlen rfl, hsucc]
      · rw [ih _ (by omega) (by omega) rfl, hmid]
    · rw [if_neg hlt, if_neg (mt UInt32.lt_iff_toNat_lt.mpr hlt), UInt32.ofNat_toNat]

theorem toInt_toInt32_ofNat {n : ℕ} (h : n < 2 ^ 31) : (UInt32.ofNat n).toInt32.toInt = n := by
  rw [UInt32.toInt32_ofNat', Int32.toInt_ofNat_of_lt h]

theorem findFileFrom_le (files : List FileMate) (key : Bytes) (l r : ℕ) :
    findFileFrom files key l r ≤ r := by
  fun_induction findFileFrom files key l r with
  | case1 l r hlr mid hany ih => exact ih
  | case2 l r hlr mid hany ih =>
    have hmid : mid ≤ r := by omega
    exact ih.trans hmid
  | case3 l r hlr => exact Nat.le_refl r

/-- `FindFile` in 32 bits finds what it finds without bounds. -/
theorem findFileInt_eq (hsize : files.length < 2 ^ 31)
    (hfiles : ∀ f ∈ files, 8 ≤ f.largest.Key.length) (hkey : 8 ≤ key.length) :
    findFileInt files key = some (findFile files key : ℤ) := by
  have hlen : (UInt32.ofNat files.length).toNat = files.length := by
    rw [UInt32.toNat_ofNat', Nat.mod_eq_of_lt (by omega)]
  have hle : findFile files key ≤ files.length := findFileFrom_le files key 0 files.length
  rw [findFileInt, FindRange.search_eq hfiles hkey hlen.le hsize, hlen, UInt32.toNat_zero, ← findFile,
    Option.bind_eq_bind, Option.bind_some, toInt_toInt32_ofNat (by omega)]
  rfl

/-! ## The lower bound -/

/-- The largest key of the file is not in front of the key. -/
def FileMate.reaches (key : Bytes) (f : FileMate) : Bool := cmp f.largest.Key key ≠ .lt

/-- The key is in the range of the file. -/
def FileMate.CanContain (f : FileMate) (key : Bytes) : Prop :=
  (cmp f.smallest.Key key).isLE ∧ (cmp key f.largest.Key).isLE

/-- The largest keys are ascending. -/
def LargestAscending (files : List FileMate) : Prop :=
  files.Pairwise fun f g => (cmp f.largest.Key g.largest.Key).isLE

instance (files : List FileMate) : Decidable (LargestAscending files) :=
  inferInstanceAs (Decidable (List.Pairwise _ _))

theorem FileMate.reaches_iff {f : FileMate} :
    f.reaches key = true ↔ (cmp key f.largest.Key).isLE := by
  rw [FileMate.reaches, decide_eq_true_eq, @OrientedCmp.eq_swap _ cmp]
  cases cmp key f.largest.Key <;> decide

theorem LargestAscending.reaches (h : LargestAscending files) (key : Bytes) :
    files.Pairwise fun f g => f.reaches key = true → g.reaches key = true := by
  refine h.imp fun hle hf => ?_
  rw [FileMate.reaches_iff] at hf ⊢
  exact TransCmp.isLE_trans hf hle

/-- The loop keeps the first file that reaches the key between its two ends. -/
theorem findFileFrom_eq_findIdx (h : LargestAscending files) {l r : ℕ}
    (hl : l ≤ files.findIdx (FileMate.reaches key)) (hr : files.findIdx (FileMate.reaches key) ≤ r)
    (hlen : r ≤ files.length) :
    findFileFrom files key l r = files.findIdx (FileMate.reaches key) := by
  have hlt (i : ℕ) (hi : i < files.length) :
      (files[i]?).any (fun f => cmp f.largest.Key key = .lt) = true ↔
        i < files.findIdx (FileMate.reaches key) := by
    rw [lt_findIdx_iff (h.reaches key) hi, List.getElem?_eq_getElem hi]
    simp [FileMate.reaches]
  fun_induction findFileFrom files key l r with
  | case1 l r hlr mid hany ih =>
    rw [hlt mid (by omega)] at hany
    exact ih hany hr hlen
  | case2 l r hlr mid hany ih =>
    rw [hlt mid (by omega), Nat.not_lt] at hany
    exact ih hl hany (by omega)
  | case3 l r hlr => omega

theorem findFile_eq_findIdx (h : LargestAscending files) :
    findFile files key = files.findIdx (FileMate.reaches key) :=
  findFileFrom_eq_findIdx h (Nat.zero_le _) List.findIdx_le_length (Nat.le_refl _)

/-- No file in front of the first one that reaches the key can contain it. -/
theorem findIdx_le_of_canContain (h : LargestAscending files) {j : ℕ} {f : FileMate}
    (hf : files[j]? = some f) (hkey : f.CanContain key) :
    files.findIdx (FileMate.reaches key) ≤ j := by
  obtain ⟨hj, rfl⟩ := List.getElem?_eq_some_iff.mp hf
  by_contra hlt
  exact (lt_findIdx_iff (h.reaches key) hj).mp (Nat.not_le.mp hlt) (FileMate.reaches_iff.mpr hkey.2)

/-- Where the files do not overlap, none behind it can. -/
theorem le_findIdx_of_canContain
    (hapart : files.Pairwise fun f g => cmp f.largest.Key g.smallest.Key = .lt) {j : ℕ}
    {f : FileMate} (hf : files[j]? = some f) (hkey : f.CanContain key) :
    j ≤ files.findIdx (FileMate.reaches key) := by
  obtain ⟨hj, rfl⟩ := List.getElem?_eq_some_iff.mp hf
  by_contra hlt
  have hfirst := (Nat.not_le.mp hlt).trans hj
  have hreaches := FileMate.reaches_iff.mp (List.findIdx_getElem (w := hfirst))
  have hbetween := List.pairwise_iff_getElem.mp hapart _ j hfirst hj (Nat.not_le.mp hlt)
  have hless := TransCmp.lt_of_isLE_of_lt hreaches (TransCmp.lt_of_lt_of_isLE hbetween hkey.1)
  rw [@ReflCmp.compare_self _ cmp] at hless
  cases hless

end Yubindb
