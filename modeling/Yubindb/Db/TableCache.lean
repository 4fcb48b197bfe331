import Yubindb.Db.Cache
import Yubindb.Db.MemtableGet
import Yubindb.Db.TableIndex
import Yubindb.Db.TableLayout
import Yubindb.Db.VersionLookup
import Yubindb.Db.Write
import Yubindb.Theory.Steps
import Yubindb.Util.ParseName

/-!
# Reading tables

`src/db/sstable.h`, `src/db/sstable.cpp`, `ShareCache` and `TableCache` of `src/db/cache.h`,
`src/db/cache.cpp`, `RandomAccessFile` and `NewRandomAccessFile` of `src/util/env.h`, `src/util/env.cpp`:
tables are opened through a cache of sixteen shards. Everything that reads a table goes through
`FindTable`.
-/

namespace Yubindb

/-! ## Random access files -/

/-- What the calls on table files come to: which names can be opened for reading, and what `pread`
reads at an offset, if it does. A view that `Read` returns is taken for the bytes that it showed when
the local array behind it was there; `behind` is what the memory holds behind such a view. -/
structure TableIo where
  /-- `NDEBUG`, which leaves the assertions out. -/
  ndebug : Bool := false
  opens : FileName → Bool
  pread : FileName → ℕ → ℕ → Option Bytes
  behind : Bytes := []

namespace TableIo
variable (E : TableEnv) (io : TableIo)

/-- The files on a disk. -/
def ofDisk (disk : FileName → Option Bytes) : TableIo where
  ndebug := true
  opens name := (disk name).isSome
  pread name offset n := (disk name).map fun bytes => (bytes.drop offset).take n

/-- `NewRandomAccessFile`. The constructor of the file asserts that the descriptor is -1. -/
def newRandomAccessFile (name : FileName) : Option State :=
  if io.opens name then if io.ndebug then some .ok else none else some .ioError

/-- `RandomAccessFile::Read`. -/
def read (file : FileName) (offset n : ℕ) : State × Bytes :=
  match io.pread file offset n with
  | some bytes => (.ok, bytes)
  | none => (.ioError, [])

/-- `ReadBlock`: the return value and `*result`; nothing where control runs off the end of the
function, or where it reads outside of the view. -/
def readBlock (file : FileName) (handle : BlockHandle) : Option (State × Bytes) :=
  let n := handle.size
  let (s, content) := io.read file handle.offset ((n + kBlockBackSize) % 2 ^ 64)
  if s ≠ .ok ∨ content.length ≠ (n + kBlockBackSize) % 2 ^ 64 then some (s, [])
  else if n + kBlockBackSize < 2 ^ 64 then
    let (s, result) := Yubindb.readBlock E content { size := n }
    s.map fun s => (s, result)
  -- the size overflows: `n + 1` is 0 for the largest one only, and the type is outside for all
  else if n + 1 = 2 ^ 64 ∧ decodeFixed32 content ≠ (E.crc.crc32c []).toNat then some (.corruption, [])
  else none

end TableIo

/-- The errors of reading a table. -/
def State.IsReadError (s : State) : Prop := s = .ioError ∨ s = .corruption

theorem State.IsReadError.ne_ok {s : State} (h : s.IsReadError) : s ≠ .ok := by
  rcases h with rfl | rfl
  · exact nofun
  · exact nofun

/-! ## Tables -/

/-- `class Table`, with what is read of its `Tablestpl`. -/
structure SSTable where
  file : FileName
  indexBlock : Block
  filter : Option FilterBlockReader := none

namespace SSTable
variable (E : TableEnv) (io : TableIo)

/-- `ReadFilter`. -/
def readFilter (t : SSTable) (filterHandleValue : Bytes) : Option SSTable :=
  match BlockHandle.decodeFrom filterHandleValue with
  | none => some t
  | some (filterHandle, _) => do
    let (s, block) ← io.readBlock E t.file filterHandle
    return if s = .ok then { t with filter := some (.new block io.behind) } else t

/-- `ReadMeta`. It calls `Seek` also where `NewIterator` has returned a null pointer. -/
def readMeta (t : SSTable) (footer : Footer) : Option SSTable := do
  let (s, rul) ← io.readBlock E t.file footer.metaindexHandle
  if s ≠ .ok then return t
  let iter ← (Block.new rul).newIterator
  let iter := iter.seek Tablebuilder.filterKey
  if BlockIter.iterator.valid iter ∧ iter.key = Tablebuilder.filterKey then
    t.readFilter E io iter.value
  else return t

end SSTable

/-- `Table::Open`: what it returns, and the table. -/
def SSTable.open (E : TableEnv) (io : TableIo) (file : FileName) (fileSize : ℕ) :
    Option (State × Option SSTable) :=
  if fileSize < Footer.kEncodedLength then some (.corruption, none)
  else
    let (s, footInput) := io.read file (fileSize - Footer.kEncodedLength) Footer.kEncodedLength
    if s ≠ .ok then some (s, none)
    -- `DecodeFrom` takes the magic number from behind a view that is too short
    else if footInput.length < Footer.kEncodedLength then none
    else
      match Footer.decodeFrom footInput with
      | .error s => some (s, none)
      | .ok (footer, _) => do
        let (s, indexBlocks) ← io.readBlock E file footer.indexHandle
        if s ≠ .ok then return (s, none)
        let table ← SSTable.readMeta E io { file, indexBlock := .new indexBlocks } footer
        return (.ok, some table)

namespace SSTable
variable (E : TableEnv) (io : TableIo)

/-- `BlockReader`, which may return a null pointer. -/
def blockReader (t : SSTable) (indexValue : Bytes) : Option (Option BlockIter) :=
  match BlockHandle.decodeFrom indexValue with
  | none => some none
  | some (handle, _) => do
    let (s, contents) ← io.readBlock E t.file handle
    return if s = .ok then (Block.new contents).newIterator else none

/-- `InternalGet`: what it returns, and what it calls `handle_result` with, if it does. The iterators
of blocks never have an error. -/
def internalGet (t : SSTable) (k : Bytes) : Option (State × Option (Bytes × Bytes)) := do
  let iiter ← t.indexBlock.newIterator
  let iiter := iiter.seek k
  if BlockIter.iterator.valid iiter = false ∨ Table.notFound t.filter E.hash iiter.value k then
    return (.ok, none)
  let blockIter ← t.blockReader E io iiter.value
  let blockIter ← blockIter
  let blockIter := blockIter.seek k
  return (.ok, if BlockIter.iterator.valid blockIter then some (blockIter.key, blockIter.value) else none)

/-- `NewIterator`. -/
def newIterator (t : SSTable) : TweLevelIterator BlockIter BlockIter where
  indexIter := ({} : IteratorWrapper BlockIter).set BlockIter.iterator t.indexBlock.newIterator

end SSTable

/-! ## The cache -/

/-- `ShareCache`, with the `std::hash` that it uses. -/
structure ShareCache (ν : Type) where
  hash : Bytes → ℕ
  sharecache : Fin 16 → LruCache ν

namespace ShareCache
variable {ν : Type}

/-- `ShareCache::ShareCache`. -/
def new (hash : Bytes → ℕ) (size : ℕ) : ShareCache ν where
  hash := hash
  sharecache _ := ({} : LruCache ν).setCapacity (size / 16)

/-- The shard of a key. -/
def index (cache : ShareCache ν) (key : Bytes) : Fin 16 := ⟨cache.hash key % 16, Nat.mod_lt _ (by decide)⟩

def set (cache : ShareCache ν) (key : Bytes) (shard : LruCache ν) : ShareCache ν :=
  { cache with sharecache := Function.update cache.sharecache (cache.index key) shard }

/-- `Insert`. -/
def insert (cache : ShareCache ν) (key : Bytes) (value : ν) : Option (ν × ShareCache ν) :=
  ((cache.sharecache (cache.index key)).insert key value).map fun (handle, shard) =>
    (handle, cache.set key shard)

/-- `Lookup`. -/
def lookup (cache : ShareCache ν) (key : Bytes) : Option (Option ν × ShareCache ν) :=
  ((cache.sharecache (cache.index key)).lookup key).map fun (handle, shard) =>
    (handle, cache.set key shard)

/-- `Erase`. -/
def erase (cache : ShareCache ν) (ekey : Bytes) : Option (ShareCache ν) :=
  ((cache.sharecache (cache.index ekey)).erase ekey).map fun shard => cache.set ekey shard

end ShareCache

/-- `TableAndFile`. -/
structure TableAndFile where
  file : FileName
  table : SSTable

/-- `kNumNonTableCacheFiles`. -/
def kNumNonTableCacheFiles : ℤ := 10

/-- `TableCache`. The pointer in a handle is taken for the one to a pointer that it is cast to. -/
structure TableCache where
  cache : ShareCache TableAndFile

namespace TableCache
variable (E : TableEnv) (io : TableIo) (tc : TableCache)

/-- `TableCache::TableCache`; the difference of two `int` becomes an `uint64_t`. -/
def new (hash : Bytes → ℕ) (maxOpenFiles : ℤ) : TableCache where
  cache := .new hash ((maxOpenFiles - kNumNonTableCacheFiles) % 2 ^ 64).toNat

/-- The calls of `NewRandomAccessFile` in `FindTable`: the state behind them, and the file. -/
def openFile (fileNum : ℕ) : Option (State × FileName) := do
  let s ← io.newRandomAccessFile (tableFileName fileNum)
  if s = .ok then return (s, tableFileName fileNum)
  let s ← io.newRandomAccessFile (sstTableFileName fileNum)
  return (s, sstTableFileName fileNum)

/-- `FindTable`: what it returns, and `*handle`. -/
def findTable (fileNum fileSize : ℕ) : Option (State × Option TableAndFile × TableCache) := do
  let key := encodeFixed64 fileNum
  let (handle, cache) ← tc.cache.lookup key
  let tc : TableCache := { cache }
  if handle.isSome then return (.ok, handle, tc)
  -- `TableFileName` asserts that the number is not 0
  if io.ndebug = false ∧ fileNum = 0 then none
  let (s, file) ← openFile io fileNum
  if s ≠ .ok then return (s, none, tc)
  let (s, table) ← SSTable.open E io file fileSize
  if s ≠ .ok then return (s, none, tc)
  let table ← table
  -- `std::shared_ptr<TableAndFile>()` points to nothing whose members could be set
  let tf : Option TableAndFile := none
  let tf ← tf.map fun _ => ({ file, table } : TableAndFile)
  let (handle, cache) ← tc.cache.insert key tf
  return (s, some handle, { cache })

/-- `Get`: what it returns, and what it calls `handle_rul` with. -/
def get (fileNum fileSize : ℕ) (key : Bytes) :
    Option (State × Option (Bytes × Bytes) × TableCache) := do
  let (s, handle, tc) ← tc.findTable E io fileNum fileSize
  if s ≠ .ok then return (s, none, tc)
  let tf ← handle
  let (s, call) ← tf.table.internalGet E io key
  return (s, call, tc)

/-- `NewIterator`, which uses the handle whether or not there is one. -/
def newIterator (fileNum fileSize : ℕ) :
    Option (TweLevelIterator BlockIter BlockIter × TableCache) := do
  let (_, handle, tc) ← tc.findTable E io fileNum fileSize
  let tf ← handle
  return (tf.table.newIterator, tc)

/-- `Evict`. -/
def evict (fileNumber : ℕ) : Option TableCache :=
  (tc.cache.erase (encodeFixed64 fileNumber)).map fun cache => { cache }

end TableCache

/-! ## Errors -/

section
variable {E : TableEnv} {io : TableIo} {file : FileName} {s : State}

theorem TableIo.isReadError_read {offset n : ℕ} {bytes : Bytes}
    (h : io.read file offset n = (s, bytes)) (hs : s ≠ .ok) : s.IsReadError := by
  rw [read] at h
  split at h
  · cases h
    exact absurd rfl hs
  · cases h
    exact .inl rfl

theorem isReadError_readBlock {bytes : Bytes} {handle : BlockHandle}
    (h : (readBlock E bytes handle).1 = some s) (hs : s ≠ .ok) : s.IsReadError := by
  rw [readBlock] at h
  split at h
  · cases h
    exact absurd rfl hs
  · split at h
    · cases h
      exact .inr rfl
    · split at h
      · cases h
      · split at h
        · split at h
          · cases h
            exact .inr rfl
          · split at h
            · cases h
              exact .inr rfl
            · cases h
        · cases h
          exact .inr rfl

theorem TableIo.isReadError_readBlock {handle : BlockHandle} {result : Bytes}
    (h : io.readBlock E file handle = some (s, result)) (hs : s ≠ .ok) : s.IsReadError := by
  rw [readBlock] at h
  dsimp only at h
  split at h
  · cases h
    exact isReadError_read rfl hs
  · split at h
    · obtain ⟨s', hread, heq⟩ := Option.map_eq_some_iff.mp h
      cases heq
      exact Yubindb.isReadError_readBlock hread hs
    · split at h
      · cases h
        exact .inr rfl
      · cases h

theorem Footer.isReadError_decodeFrom {input : Bytes} (h : decodeFrom input = .error s) :
    s.IsReadError := by
  rw [decodeFrom] at h
  split at h
  · cases h
    exact .inr rfl
  · split at h
    · cases h
      exact .inr rfl
    · split at h
      · cases h
        exact .inr rfl
      · cases h

theorem SSTable.isReadError_open {fileSize : ℕ} {table : Option SSTable}
    (h : SSTable.open E io file fileSize = some (s, table)) (hs : s ≠ .ok) : s.IsReadError := by
  rw [SSTable.open] at h
  dsimp only at h
  split at h
  · cases h
    exact .inr rfl
  · split at h
    · cases h
      exact TableIo.isReadError_read rfl hs
    · split at h
      · cases h
      · split at h
        · next hfooter =>
          cases h
          exact Footer.isReadError_decodeFrom hfooter
        · obtain ⟨⟨s', blocks⟩, hread, h⟩ := Option.bind_eq_some_iff.mp h
          dsimp only at h
          split at h
          · next hs' =>
            cases h
            exact TableIo.isReadError_readBlock hread hs'
          · obtain ⟨table, -, h⟩ := Option.bind_eq_some_iff.mp h
            cases h
            exact absurd rfl hs

theorem TableIo.isReadError_newRandomAccessFile (h : io.newRandomAccessFile file = some s)
    (hs : s ≠ .ok) : s.IsReadError := by
  rw [newRandomAccessFile] at h
  split at h
  · split at h
    · cases h
      exact absurd rfl hs
    · cases h
  · cases h
    exact .inl rfl

theorem TableCache.isReadError_openFile {fileNum : ℕ} (h : openFile io fileNum = some (s, file))
    (hs : s ≠ .ok) : s.IsReadError := by
  obtain ⟨s', hs', h⟩ := Option.bind_eq_some_iff.mp h
  split at h
  · next hok =>
    cases h
    exact absurd hok hs
  · obtain ⟨s'', hs'', h⟩ := Option.bind_eq_some_iff.mp h
    cases h
    exact TableIo.isReadError_newRandomAccessFile hs'' hs

end

/-! ## A new cache stays empty -/

namespace TableCache
variable (E : TableEnv)

/-- A call, with what its reads come to. -/
inductive Call
  | get (fileNum fileSize : ℕ) (key : Bytes)
  | newIterator (fileNum fileSize : ℕ)
  | evict (fileNumber : ℕ)

/-- One call, of any thread. -/
def step (call : Call × TableIo) (tc : TableCache) : Option TableCache :=
  match call.1 with
  | .get fileNum fileSize key => (tc.get E call.2 fileNum fileSize key).map fun r => r.2.2
  | .newIterator fileNum fileSize => (tc.newIterator E call.2 fileNum fileSize).map Prod.snd
  | .evict fileNumber => tc.evict fileNumber

variable {E : TableEnv} {io : TableIo} {tc : TableCache} {hash : Bytes → ℕ} {maxOpenFiles : ℤ}
  {fileNum fileSize : ℕ} {key : Bytes}

theorem set_new (size : ℕ) (key : Bytes) :
    (ShareCache.new hash size : ShareCache TableAndFile).set key
      (({} : LruCache TableAndFile).setCapacity (size / 16)) = .new hash size := by
  rw [ShareCache.set, ShareCache.new, Function.update_eq_self_iff.mpr rfl]

theorem lookup_new (size : ℕ) (key : Bytes) :
    (ShareCache.new hash size : ShareCache TableAndFile).lookup key = some (none, .new hash size) :=
  congrArg (fun cache => some (none, cache)) (set_new size key)

theorem evict_new : (new hash maxOpenFiles).evict fileNum = some (new hash maxOpenFiles) :=
  congrArg (fun cache => some (TableCache.mk cache)) (set_new _ (encodeFixed64 fileNum))

/-- What `FindTable` returns where the cache does not have the table. -/
def findError (E : TableEnv) (io : TableIo) (fileNum fileSize : ℕ) : Option State :=
  if io.ndebug = false ∧ fileNum = 0 then none
  else (openFile io fileNum).bind fun r =>
    if r.1 ≠ .ok then some r.1
    else (SSTable.open E io r.2 fileSize).bind fun r => if r.1 ≠ .ok then some r.1 else none

theorem isReadError_findError {s : State} (h : findError E io fileNum fileSize = some s) :
    s.IsReadError := by
  rw [findError] at h
  split at h
  · cases h
  · obtain ⟨⟨s', file⟩, hfile, h⟩ := Option.bind_eq_some_iff.mp h
    split at h
    · next hs =>
      cases h
      exact isReadError_openFile hfile hs
    · obtain ⟨⟨s', table⟩, hopen, h⟩ := Option.bind_eq_some_iff.mp h
      split at h
      · next hs =>
        cases h
        exact SSTable.isReadError_open hopen hs
      · cases h

/-- From a new cache nothing is ever found: what `FindTable` returns is an error. -/
theorem findTable_new : (new hash maxOpenFiles).findTable E io fileNum fileSize =
    (findError E io fileNum fileSize).map fun s => (s, none, new hash maxOpenFiles) := by
  rw [findTable, findError]
  simp only [new, lookup_new, Option.bind_eq_bind, Option.bind_some, Option.isSome_none,
    Bool.false_eq_true, if_false]
  split
  · rfl
  · rw [Option.map_bind]
    refine congrArg _ (funext fun r => ?_)
    by_cases hfile : r.1 ≠ .ok
    · simp only [Function.comp, if_pos hfile]
      rfl
    · simp only [Function.comp, if_neg hfile]
      rw [Option.map_bind]
      refine congrArg _ (funext fun r => ?_)
      by_cases hopen : r.1 ≠ .ok
      · simp only [Function.comp, if_pos hopen]
        rfl
      · simp only [Function.comp, if_neg hopen]
        cases r.2 <;> rfl

theorem get_new : (new hash maxOpenFiles).get E io fileNum fileSize key =
    (findError E io fileNum fileSize).map fun s => (s, none, new hash maxOpenFiles) := by
  rw [get, findTable_new]
  cases hfind : findError E io fileNum fileSize with
  | none => rfl
  | some s => exact if_pos (isReadError_findError hfind).ne_ok

theorem of_get_new {r : State × Option (Bytes × Bytes) × TableCache}
    (h : (new hash maxOpenFiles).get E io fileNum fileSize key = some r) :
    ∃ s, s.IsReadError ∧ r = (s, none, new hash maxOpenFiles) := by
  obtain ⟨s, hs, rfl⟩ := Option.map_eq_some_iff.mp (get_new.symm.trans h)
  exact ⟨s, isReadError_findError hs, rfl⟩

/-- `NewIterator` uses a handle that `FindTable` has not set. -/
theorem newIterator_new :
    (new hash maxOpenFiles).newIterator E io fileNum fileSize = none := by
  rw [newIterator, findTable_new]
  cases findError E io fileNum fileSize <;> rfl

theorem step_new {call : Call × TableIo}
    (h : step E call (new hash maxOpenFiles) = some tc) : tc = new hash maxOpenFiles := by
  obtain ⟨call, io⟩ := call
  cases call with
  | get fileNum fileSize key =>
    obtain ⟨r, hget, rfl⟩ := Option.map_eq_some_iff.mp h
    obtain ⟨s, -, rfl⟩ := of_get_new hget
    rfl
  | newIterator fileNum fileSize =>
    have hnone := @newIterator_new E io hash maxOpenFiles fileNum fileSize
    obtain ⟨r, hsome, -⟩ := Option.map_eq_some_iff.mp h
    exact absurd (hnone.symm.trans hsome) nofun
  | evict fileNumber =>
    exact (Option.some.inj (evict_new.symm.trans h)).symm

/-- Whatever is called, nothing gets into the cache. -/
theorem eq_new (h : Steps (step E) (fun _ _ => True) (new hash maxOpenFiles) tc) :
    tc = new hash maxOpenFiles :=
  @Steps.invariant _ _ _ _ _ _ (fun tc => tc = new hash maxOpenFiles)
    (fun _ _ _ _ hstep heq => step_new (heq ▸ hstep)) h rfl

end TableCache

/-! ## Lookups -/

namespace Version
variable (E : TableEnv) (io : TableIo) (key : Lookey)

/-- The loop over the files that are searched in a level. -/
def searchFilesIn (value : Bytes) :
    TableCache → List FileMate → Option (Option State × Bytes × TableCache)
  | tc, [] => some (none, value, tc)
  | tc, f :: files => do
    let saver : Saver := { state := .notFound, userKey := key.key, value }
    let (s, call, tc) ← tc.get E io f.num f.fileSize key.internalKey.Key
    let saver ← match call with
      | none => some saver
      | some (ikey, v) => saveValue saver ikey v
    if s ≠ .ok then return (some s, saver.value, tc)
    match saver.state with
    | .notFound => searchFilesIn saver.value tc files
    | .found => return (some s, saver.value, tc)
    | .deleted => return (some .notFound, saver.value, tc)
    | .corrupt => return (some .corruption, saver.value, tc)

/-- The loop over the levels. -/
def searchLevelsIn (v : Version) (value : Bytes) :
    TableCache → List Level → Option (State × Bytes × TableCache)
  | tc, [] => some (.notFound, value, tc)
  | tc, level :: levels => do
    let files ← v.filesToSearch level key
    match ← searchFilesIn E io key value tc files with
    | (some s, value, tc) => return (s, value, tc)
    | (none, value, tc) => v.searchLevelsIn value tc levels

/-- `Version::Get`, with the table cache. -/
def getIn (v : Version) (value : Bytes) (tc : TableCache) : Option (State × Bytes × TableCache) :=
  v.searchLevelsIn E io key value tc (List.finRange kNumLevels)

/-- The first file that a lookup searches in these levels, if there is one. -/
def firstFile (v : Version) (key : Lookey) : List Level → Option (Option FileMate)
  | [] => some none
  | level :: levels => do
    match ← v.filesToSearch level key with
    | [] => v.firstFile key levels
    | f :: _ => return some f

variable {E : TableEnv} {io : TableIo} {key : Lookey} {v : Version} {hash : Bytes → ℕ}
  {maxOpenFiles : ℤ} {f : FileMate} {files : List FileMate} {levels : List Level} {value : Bytes}

/-- The first file ends the search, with an error. -/
theorem of_searchFilesIn_new {r : Option State × Bytes × TableCache}
    (h : searchFilesIn E io key value (.new hash maxOpenFiles) (f :: files) = some r) :
    ∃ s, s.IsReadError ∧ r = (some s, value, .new hash maxOpenFiles) := by
  obtain ⟨r', hget, h⟩ := Option.bind_eq_some_iff.mp h
  obtain ⟨s, hs, rfl⟩ := TableCache.of_get_new hget
  dsimp only at h
  rw [Option.bind_eq_bind, Option.bind_some, if_pos hs.ne_ok] at h
  cases h
  exact ⟨s, hs, rfl⟩

theorem of_searchLevelsIn_new {r : State × Bytes × TableCache}
    (h : v.searchLevelsIn E io key value (.new hash maxOpenFiles) levels = some r) :
    ∃ s, r = (s, value, .new hash maxOpenFiles) ∧
      (v.firstFile key levels = some none ∧ s = .notFound ∨
        ∃ f, v.firstFile key levels = some (some f) ∧ s.IsReadError) := by
  induction levels with
  | nil =>
    cases h
    exact ⟨_, rfl, .inl ⟨rfl, rfl⟩⟩
  | cons level levels ih =>
    obtain ⟨files, hfiles, h⟩ := Option.bind_eq_some_iff.mp h
    cases files with
    | nil =>
      obtain ⟨s, hr, hfirst⟩ := ih h
      refine ⟨s, hr, ?_⟩
      rw [firstFile, hfiles]
      exact hfirst
    | cons f files =>
      obtain ⟨r', hsearch, h⟩ := Option.bind_eq_some_iff.mp h
      obtain ⟨s, hs, rfl⟩ := of_searchFilesIn_new hsearch
      cases h
      refine ⟨s, rfl, .inr ⟨f, ?_, hs⟩⟩
      rw [firstFile, hfiles]
      rfl

end Version

namespace DBImpl

/-- The part of `DBImpl::Get` that looks into `mem_` and `imm_`: `*value` and `s`, if it ends there. -/
def getInMemory (find : SkiplistFind) (behind : Node → Bytes) (db : DBImpl) (lk : Lookey)
    (value : Bytes) : Option (State × Bytes) :=
  let (found, value, s) := db.mem.get find behind lk value .ok
  if found then some (s, value)
  else
    match db.imm with
    | none => none
    | some imm =>
      let (found, value, s) := imm.get find behind lk value s
      if found then some (s, value) else none

/-- `DBImpl::Get`: what it returns, and `*value`. -/
def get (E : TableEnv) (io : TableIo) (find : SkiplistFind) (behind : Node → Bytes) (db : DBImpl)
    (snapshot : Option ℕ) (key value : Bytes) (tc : TableCache) :
    Option (State × Bytes × TableCache) :=
  let lk := Lookey.new key (snapshot.getD db.versions.lastSequence)
  match db.getInMemory find behind lk value with
  | some (s, value) => some (s, value, tc)
  | none => db.versions.nowversion.getIn E io lk value tc

variable {E : TableEnv} {io : TableIo} {find : SkiplistFind} {behind : Node → Bytes} {db : DBImpl}
  {snapshot : Option ℕ} {key value value' : Bytes} {tc tc' : TableCache} {s : State}
  {hash : Bytes → ℕ} {maxOpenFiles : ℤ}

/-- Whatever has been called on the table cache: a `Get` that does not end in the memtables leaves
`*value` alone and returns `NotFound` where no file has the key in its range, and an error of the
first file that has it where there is one. -/
theorem get_in_memory
    (hrun : Steps (TableCache.step E) (fun _ _ => True) (.new hash maxOpenFiles) tc)
    (h : db.get E io find behind snapshot key value tc = some (s, value', tc')) :
    let lk := Lookey.new key (snapshot.getD db.versions.lastSequence)
    let first := db.versions.nowversion.firstFile lk (List.finRange kNumLevels)
    tc' = tc ∧ (db.getInMemory find behind lk value = some (s, value') ∨
      db.getInMemory find behind lk value = none ∧ value' = value ∧
        (first = some none ∧ s = .notFound ∨ ∃ f, first = some (some f) ∧ s.IsReadError)) := by
  intro lk first
  obtain rfl := TableCache.eq_new hrun
  rw [get] at h
  split at h
  · next hmem =>
    cases h
    exact ⟨rfl, .inl hmem⟩
  · next hmem =>
    obtain ⟨s', heq, hfirst⟩ := Version.of_searchLevelsIn_new h
    cases heq
    exact ⟨rfl, .inr ⟨hmem, rfl, hfirst⟩⟩

/-- A table of one key, in level 0. -/
def oneTable : DBImpl where
  versions := { nowversion := { files := fun level =>
    if level = 0 then [⟨5, 60, .new [107] 1 .value, .new [107] 1 .value⟩] else [] } }

/-- The disk does not have the table. -/
theorem get_oneTable : oneTable.get .sample (.ofDisk fun _ => none) firstNotLess (fun _ => []) (some 3)
    [107] [] (.new (fun _ => 0) 1000) = some (.ioError, [], .new (fun _ => 0) 1000) := by
  have htable : (TableCache.new (fun _ => 0) 1000).get .sample (.ofDisk fun _ => none) 5 60
      (Lookey.new [107] 3).internalKey.Key = some (.ioError, none, .new (fun _ => 0) 1000) := by
    rw [TableCache.get_new]
    rfl
  have hfiles : oneTable.versions.nowversion.filesToSearch 0 (.new [107] 3) =
      some [⟨5, 60, .new [107] 1 .value, .new [107] 1 .value⟩] := by
    decide +kernel
  have hlevels : List.finRange kNumLevels = 0 :: (List.finRange (kNumLevels - 1)).map Fin.succ := rfl
  have hmem : oneTable.getInMemory firstNotLess (fun _ => []) (.new [107] 3) [] = none := by
    decide +kernel
  rw [get, Option.getD_some, hmem]
  dsimp only
  rw [Version.getIn, hlevels, Version.searchLevelsIn, hfiles, Option.bind_eq_bind, Option.bind_some,
    Version.searchFilesIn, htable]
  rfl

theorem get_in_memory_missing :
    let lk := Lookey.new [107] ((some 3).getD oneTable.versions.lastSequence)
    let first := oneTable.versions.nowversion.firstFile lk (List.finRange kNumLevels)
    TableCache.new (fun _ => 0) 1000 = .new (fun _ => 0) 1000 ∧
      (oneTable.getInMemory firstNotLess (fun _ => []) lk [] = some (.ioError, []) ∨
      oneTable.getInMemory firstNotLess (fun _ => []) lk [] = none ∧ ([] : Bytes) = [] ∧
        (first = some none ∧ State.ioError = .notFound ∨
          ∃ f, first = some (some f) ∧ State.IsReadError .ioError)) := by
  have hrun : Steps (TableCache.step .sample) (fun _ _ => True)
      (.new (fun _ => 0) 1000) (.new (fun _ => 0) 1000) :=
    .head (l := (.evict 5, .ofDisk fun _ => none)) trivial TableCache.evict_new (.refl _)
  exact get_in_memory hrun get_oneTable

end DBImpl
end Yubindb
