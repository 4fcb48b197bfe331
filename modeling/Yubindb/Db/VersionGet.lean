import Mathlib.Data.List.FinRange
import Yubindb.Db.Memtable
import Yubindb.Db.VersionSet
import Yubindb.Theory.Ascending
import Yubindb.Theory.Versioned

/-!
# Lookups in a version

`Version::Get`, `FindFile` and `SaveValue` of `src/db/version_set.h`, `src/db/version_set.cpp`,
`ParseInternalKey` of `src/util/key.h` and the comparison of views of `src/util/options.h`. The
statistics that `Get` fills in are read nowhere and left out. `TableCache::Get` is a parameter.
-/

namespace Yubindb
open Cursor Std

/-! ## Callbacks -/

/-- `ParsedInternalKey`. -/
structure ParsedInternalKey where
  userKey : Bytes
  sequence : ℕ
  type : Valuetype
  deriving DecidableEq, Repr

/-- `ParseInternalKey`. -/
def parseInternalKey (internalKey : Bytes) : Option ParsedInternalKey :=
  let n := internalKey.length
  if n < 8 then none
  else
    let num := decodeFixed64 (internalKey.drop (n - 8))
    let userKey := internalKey.take (n - 8)
    if num &&& 0xff = Valuetype.value.code then some ⟨userKey, num >>> 8, .value⟩
    else if num &&& 0xff = Valuetype.deletion.code then some ⟨userKey, num >>> 8, .deletion⟩
    else none

/-- `cmp` of two views. Its views of all but the last eight bytes are undefined where there are none. -/
def viewCmp (a b : Bytes) : Option Ordering :=
  if a.length < 8 ∨ b.length < 8 then none else some (cmp a b)

theorem viewCmp_eq_some {a b : Bytes} {o : Ordering} :
    viewCmp a b = some o ↔ (8 ≤ a.length ∧ 8 ≤ b.length) ∧ cmp a b = o := by
  rw [viewCmp]
  split
  · next hshort =>
    refine ⟨nofun, fun ⟨hlong, _⟩ => ?_⟩
    omega
  · next hlong =>
    rw [Option.some.injEq]
    refine ⟨fun h => ⟨?_, h⟩, fun h => h.2⟩
    omega

theorem eq_of_viewCmp {a b : Bytes} {o : Ordering} (h : viewCmp a b = some o) : cmp a b = o :=
  (viewCmp_eq_some.mp h).2

/-- `enum SaverState`. -/
inductive SaverState
  | notFound | found | deleted | corrupt
  deriving DecidableEq, Repr

/-- `Saver`, with what `value` points to. -/
structure Saver where
  state : SaverState
  userKey : Bytes
  value : Bytes
  deriving DecidableEq, Repr

/-- `SaveValue`. -/
def saveValue (s : Saver) (ikey v : Bytes) : Option Saver :=
  match parseInternalKey ikey with
  | none => some { s with state := .corrupt }
  | some parsed => do
    let order ← viewCmp parsed.userKey s.userKey
    if order = .eq then
      if parsed.type = .value then return { s with state := .found, value := v }
      else return { s with state := .deleted }
    else return s

/-- `TableCache::Get` of a file number, a file size and a key: what it returns, and the arguments of the
callback if that is called. -/
abbrev TableCacheGet := ℕ → ℕ → Bytes → State × Option (Bytes × Bytes)

/-! ## Versions -/

/-- The loop of `FindFile`. -/
def findFileFrom (files : List FileMate) (key : Bytes) (left right : ℕ) : ℕ :=
  if left < right then
    let mid := (left + right) / 2
    if (files[mid]?).any fun f => cmp f.largest.Key key = .lt then findFileFrom files key (mid + 1) right
    else findFileFrom files key left mid
  else right
termination_by right - left

/-- `FindFile`. -/
def findFile (files : List FileMate) (key : Bytes) : ℕ := findFileFrom files key 0 files.length

namespace Version

/-- The files of a level that `Get` searches, in order. -/
def filesToSearch (v : Version) (level : Level) (key : Lookey) : Option (List FileMate) :=
  let files := v.files level
  if level = 0 then
    let tmp := files.filter fun f => (compare f.smallest.extractUserKey key.key).isLE ∧
      (compare key.key f.largest.extractUserKey).isLE
    -- `NewestFirst`
    some (tmp.mergeSort fun a b => b.num ≤ a.num)
  else
    match files[findFile files key.internalKey.Key]? with
    | none => some []
    | some f => do
      let order ← viewCmp key.key f.smallest.extractUserKey
      return if order = .lt then [] else [f]

/-- The loop over these files, which may return from `Get`. -/
def searchFiles (cacheGet : TableCacheGet) (key : Lookey) (value : Bytes) :
    List FileMate → Option (Option State × Bytes)
  | [] => some (none, value)
  | f :: files => do
    let saver : Saver := { state := .notFound, userKey := key.key, value }
    let (s, call) := cacheGet f.num f.fileSize key.internalKey.Key
    let saver ← match call with
      | none => some saver
      | some (ikey, v) => saveValue saver ikey v
    if s ≠ .ok then return (some s, saver.value)
    match saver.state with
    | .notFound => searchFiles cacheGet key saver.value files
    | .found => return (some s, saver.value)
    | .deleted => return (some .notFound, saver.value)
    | .corrupt => return (some .corruption, saver.value)

/-- The loop over the levels. -/
def searchLevels (v : Version) (cacheGet : TableCacheGet) (key : Lookey) (value : Bytes) :
    List Level → Option (State × Bytes)
  | [] => some (.notFound, value)
  | level :: levels => do
    let files ← v.filesToSearch level key
    match ← searchFiles cacheGet key value files with
    | (some s, value) => return (s, value)
    | (none, value) => v.searchLevels cacheGet key value levels

/-- `Version::Get`: what it returns, and what `*val` holds then. -/
def get (v : Version) (cacheGet : TableCacheGet) (key : Lookey) (value : Bytes) :
    Option (State × Bytes) :=
  v.searchLevels cacheGet key value (List.finRange kNumLevels)

end Version
end Yubindb
