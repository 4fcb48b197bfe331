import Mathlib.Data.List.Nodup
import Mathlib.Logic.Function.Basic
import Yubindb.Theory.Lru
import Yubindb.Util.Common

/-!
# The LRU cache

`src/db/cache.h`, `src/db/cache.cpp`: `LruCache`, a list of nodes and a map from keys to iterators. An
iterator is the identity of a node. The handles are of any type.
-/

namespace Yubindb

variable {ν : Type*}

/-- A node of `cacheList`. -/
structure CacheNode (ν : Type*) where
  id : Nat
  first : Bytes
  second : ν

/-- `LruCache`; `nextNode` is the identity of the next node. -/
structure LruCache (ν : Type*) where
  size : Nat := 0
  cacheList : List (CacheNode ν) := []
  cacheMap : Bytes → Option Nat := fun _ => none
  nextNode : Nat := 0

namespace LruCache

/-- `SetCapacity`. -/
def setCapacity (cache : LruCache ν) (capacity : Nat) : LruCache ν := { cache with size := capacity }

/-- `cacheList.erase`; undefined for an iterator of no node. -/
def eraseNode (cache : LruCache ν) (it : Nat) : Option (LruCache ν) :=
  (cache.cacheList.find? (·.id = it)).map fun _ =>
    { cache with cacheList := cache.cacheList.filter (·.id ≠ it) }

/-- `cacheList.splice` to the front, and the node; undefined for an iterator of no node. -/
def spliceFront (cache : LruCache ν) (it : Nat) : Option (CacheNode ν × LruCache ν) :=
  (cache.cacheList.find? (·.id = it)).map fun node =>
    (node, { cache with cacheList := node :: cache.cacheList.filter (·.id ≠ it) })

/-- `LruCache::Erase`. -/
def erase (cache : LruCache ν) (ekey : Bytes) : Option (LruCache ν) :=
  match cache.cacheMap ekey with
  | some it => (cache.eraseNode it).map fun cache =>
    { cache with cacheMap := Function.update cache.cacheMap ekey none }
  | none => some cache

/-- `LruCache::Insert`. Without a node of the key, it splices through `end()`, which is undefined. -/
def insert (cache : LruCache ν) (first : Bytes) (second : ν) : Option (ν × LruCache ν) :=
  let hand : CacheNode ν := ⟨cache.nextNode, first, second⟩
  match cache.cacheMap first with
  | some _ =>
    let list := hand :: cache.cacheList
    let map := Function.update cache.cacheMap first (some hand.id)
    if list.length > cache.size then
      let back := (list.getLast (List.cons_ne_nil _ _)).first
      some (second, { cache with
        cacheList := list.dropLast
        cacheMap := Function.update map back none
        nextNode := cache.nextNode + 1 })
    else
      some (second, { cache with
        cacheList := list, cacheMap := map, nextNode := cache.nextNode + 1 })
  | none => none

/-- `LruCache::Lookup`. -/
def lookup (cache : LruCache ν) (key : Bytes) : Option (Option ν × LruCache ν) :=
  match cache.cacheMap key with
  | some it => (cache.spliceFront it).map fun (node, cache) =>
    (some node.second, { cache with cacheMap := Function.update cache.cacheMap key (some node.id) })
  | none => some (none, cache)

/-- One call, and the handle that it returns. -/
def call (cache : LruCache ν) : Lru.Op Bytes ν → Option (Option ν × LruCache ν)
  | .insert key value => (cache.insert key value).map fun (handle, cache) => (some handle, cache)
  | .lookup key => cache.lookup key
  | .erase key => (cache.erase key).map fun cache => (none, cache)

/-! ## The model -/

/-- The entries of the list, the most recent one first. -/
def model (cache : LruCache ν) : List (Bytes × ν) := cache.cacheList.map fun n => (n.first, n.second)

/-- The map and the list are in bijection, and the list is within the capacity. -/
structure Consistent (cache : LruCache ν) : Prop where
  length_le : cache.cacheList.length ≤ cache.size
  keys : (cache.cacheList.map CacheNode.first).Nodup
  ids : (cache.cacheList.map CacheNode.id).Nodup
  map : ∀ key it,
    cache.cacheMap key = some it ↔ ∃ n ∈ cache.cacheList, n.first = key ∧ n.id = it

/-- The call is defined, does what the model does, and leaves the cache consistent. -/
def Refines (cache : LruCache ν) (op : Lru.Op Bytes ν) (r : Option ν × LruCache ν) : Prop :=
  cache.call op = some r ∧ r.2.Consistent ∧ r.2.size = cache.size ∧
    (r.1, r.2.model) = Lru.step cache.size cache.model op

/-- Every call of the sequence refines the model. -/
def RefinesAll : List (Lru.Op Bytes ν) → LruCache ν → Prop
  | [], _ => True
  | op :: ops, cache => ∃ r, cache.Refines op r ∧ RefinesAll ops r.2

variable {cache : LruCache ν} {key : Bytes} {it : Nat}

theorem map_fst_model : cache.model.map Prod.fst = cache.cacheList.map CacheNode.first :=
  List.map_map

namespace Consistent

theorem eq_of_first (h : cache.Consistent) {m n : CacheNode ν} (hm : m ∈ cache.cacheList)
    (hn : n ∈ cache.cacheList) (heq : m.first = n.first) : m = n :=
  List.inj_on_of_nodup_map h.keys hm hn heq

theorem eq_of_id (h : cache.Consistent) {m n : CacheNode ν} (hm : m ∈ cache.cacheList)
    (hn : n ∈ cache.cacheList) (heq : m.id = n.id) : m = n :=
  List.inj_on_of_nodup_map h.ids hm hn heq

/-- What the model's bounds say of a cache. -/
theorem of_model {cache' : LruCache ν} {op : Lru.Op Bytes ν} (h : cache.Consistent)
    (hsize : cache'.size = cache.size)
    (hmodel : cache'.model = (Lru.step cache.size cache.model op).2)
    (hids : (cache'.cacheList.map CacheNode.id).Nodup)
    (hmap : ∀ key it,
      cache'.cacheMap key = some it ↔ ∃ n ∈ cache'.cacheList, n.first = key ∧ n.id = it) :
    cache'.Consistent where
  length_le := by
    have hlen : cache.model.length ≤ cache.size := by simpa [model] using h.length_le
    have hle := Lru.length_step_le op hlen
    rw [← hmodel, ← hsize] at hle
    simpa [model] using hle
  keys := by
    have hkeys : (cache.model.map Prod.fst).Nodup := map_fst_model ▸ h.keys
    have hnodup := Lru.nodup_step (c := cache.size) op hkeys
    rwa [← hmodel, map_fst_model] at hnodup
  ids := hids
  map := hmap

end Consistent

theorem value?_model (cache : LruCache ν) (key : Bytes) :
    Lru.value? key cache.model = (cache.cacheList.find? (·.first = key)).map CacheNode.second := by
  rw [Lru.value?, model, List.find?_map, Option.map_map]
  rfl

theorem remove_model (cache : LruCache ν) (key : Bytes) :
    Lru.remove key cache.model =
      (cache.cacheList.filter (·.first ≠ key)).map fun n => (n.first, n.second) := by
  rw [Lru.remove, model, List.filter_map]
  rfl

namespace Consistent

theorem exists_node (h : cache.Consistent) (hmap : cache.cacheMap key = some it) :
    ∃ n ∈ cache.cacheList, (n.first = key ∧ n.id = it) ∧
      cache.cacheList.find? (·.id = it) = some n := by
  obtain ⟨n, hn, hkey, rfl⟩ := (h.map key it).mp hmap
  exact ⟨n, hn, ⟨hkey, rfl⟩, Lru.find?_of_nodup h.ids hn⟩

theorem not_mem (h : cache.Consistent) (hmap : cache.cacheMap key = none) {n : CacheNode ν}
    (hn : n ∈ cache.cacheList) : n.first ≠ key := by
  intro hkey
  have hsome := (h.map key n.id).mpr ⟨n, hn, hkey, rfl⟩
  rw [hmap] at hsome
  cases hsome

/-- The other nodes are the nodes of the other keys. -/
theorem filter_id (h : cache.Consistent) {n : CacheNode ν} (hn : n ∈ cache.cacheList) :
    cache.cacheList.filter (·.id ≠ n.id) = cache.cacheList.filter (·.first ≠ n.first) := by
  refine List.filter_congr fun m hm => decide_eq_decide.mpr (not_congr ⟨fun hid => ?_, fun hkey => ?_⟩)
  · rw [h.eq_of_id hm hn hid]
  · rw [h.eq_of_first hm hn hkey]

/-! ## The three calls -/

theorem lookup (h : cache.Consistent) (key : Bytes) : ∃ r, cache.Refines (.lookup key) r := by
  cases hmap : cache.cacheMap key with
  | none =>
    have hvalue : Lru.value? key cache.model = none := by
      rw [value?_model, List.find?_eq_none.mpr fun n hn => by simpa using h.not_mem hmap hn]
      rfl
    refine ⟨(none, cache), ?_, h, rfl, ?_⟩
    · rw [call, LruCache.lookup, hmap]
    · rw [Lru.step, hvalue]
  | some it =>
    obtain ⟨n, hn, ⟨rfl, rfl⟩, hfind⟩ := h.exists_node hmap
    have hvalue : Lru.value? n.first cache.model = some n.second := by
      rw [value?_model, Lru.find?_of_nodup h.keys hn]
      rfl
    have hmem (m : CacheNode ν) :
        m ∈ n :: cache.cacheList.filter (·.id ≠ n.id) ↔ m ∈ cache.cacheList := by
      rw [List.mem_cons, List.mem_filter, decide_eq_true_iff]
      constructor
      · rintro (rfl | ⟨hm, -⟩)
        · exact hn
        · exact hm
      · intro hm
        by_cases hid : m.id = n.id
        · exact .inl (h.eq_of_id hm hn hid)
        · exact .inr ⟨hm, hid⟩
    have hmodel : (some n.second,
        (n :: cache.cacheList.filter (·.id ≠ n.id)).map fun m => (m.first, m.second)) =
          Lru.step cache.size cache.model (.lookup n.first) := by
      rw [Lru.step, hvalue, remove_model, h.filter_id hn]
      rfl
    refine ⟨(some n.second, { cache with
      cacheList := n :: cache.cacheList.filter (·.id ≠ n.id) }), ?_, ?_, rfl, hmodel⟩
    · -- The map has this iterator already, so that the assignment changes nothing.
      rw [call, LruCache.lookup, hmap]
      simp only [spliceFront, hfind, Option.map_some]
      rw [Function.update_eq_self_iff.mpr hmap.symm]
    · refine h.of_model rfl (congrArg Prod.snd hmodel) ?_ fun key it => ?_
      · refine List.nodup_cons.mpr ⟨fun hid => ?_, h.ids.sublist (List.filter_sublist.map _)⟩
        obtain ⟨m, hm, heq⟩ := List.mem_map.mp hid
        exact of_decide_eq_true (List.mem_filter.mp hm).2 heq
      · exact (h.map key it).trans (exists_congr fun m => and_congr_left' (hmem m).symm)

theorem erase (h : cache.Consistent) (key : Bytes) : ∃ r, cache.Refines (.erase key) r := by
  cases hmap : cache.cacheMap key with
  | none =>
    have hremove : Lru.remove key cache.model = cache.model := by
      rw [remove_model, List.filter_eq_self.mpr fun n hn => decide_eq_true (h.not_mem hmap hn)]
      rfl
    refine ⟨(none, cache), ?_, h, rfl, ?_⟩
    · rw [call, LruCache.erase, hmap]
      rfl
    · rw [Lru.step, hremove]
  | some it =>
    obtain ⟨n, hn, ⟨rfl, rfl⟩, hfind⟩ := h.exists_node hmap
    have hmodel : (none, (cache.cacheList.filter (·.id ≠ n.id)).map fun m => (m.first, m.second)) =
        Lru.step cache.size cache.model (.erase n.first) := by
      rw [Lru.step, remove_model, h.filter_id hn]
    refine ⟨(none, { cache with
      cacheList := cache.cacheList.filter (·.id ≠ n.id)
      cacheMap := Function.update cache.cacheMap n.first none }), ?_, ?_, rfl, hmodel⟩
    · rw [call, LruCache.erase, hmap]
      simp only [eraseNode, hfind, Option.map_some]
    · refine h.of_model rfl (congrArg Prod.snd hmodel)
        (h.ids.sublist (List.filter_sublist.map _)) fun key it => ?_
      simp only [h.filter_id hn, List.mem_filter, decide_eq_true_iff]
      by_cases hkey : key = n.first
      · subst hkey
        rw [Function.update_self]
        refine iff_of_false (Option.not_mem_none _) ?_
        rintro ⟨m, ⟨-, hne⟩, heq, -⟩
        exact hne heq
      · rw [Function.update_of_ne hkey, h.map key it]
        refine exists_congr fun m => ?_
        constructor
        · rintro ⟨hm, heq, hid⟩
          exact ⟨⟨hm, heq ▸ hkey⟩, heq, hid⟩
        · rintro ⟨⟨hm, -⟩, heq, hid⟩
          exact ⟨hm, heq, hid⟩

/-- With a node of the key in the list, the new node is a second one, or its entry of the map is the
one that goes with the last node. -/
theorem not_insert (h : cache.Consistent) (key : Bytes) (value : ν) (r : Option ν × LruCache ν) :
    ¬ cache.Refines (.insert key value) r := by
  rintro ⟨hcall, hr, -, -⟩
  obtain ⟨⟨handle, cache'⟩, hinsert, rfl⟩ := Option.map_eq_some_iff.mp hcall
  rw [LruCache.insert] at hinsert
  split at hinsert
  · next it hmap =>
    obtain ⟨n, hn, ⟨rfl, -⟩, -⟩ := h.exists_node hmap
    dsimp only at hinsert
    split at hinsert
    · cases hinsert
      let hand : CacheNode ν := ⟨cache.nextNode, n.first, value⟩
      have hne : cache.cacheList ≠ [] := List.ne_nil_of_mem hn
      have hkeys := hr.keys
      have hmapped := hr.map n.first hand.id
      simp only [List.dropLast_cons_of_ne_nil hne, List.getLast_cons hne] at hkeys hmapped
      rw [List.map_cons, List.nodup_cons] at hkeys
      by_cases hlast : n = cache.cacheList.getLast hne
      · have hsome := hmapped.mpr ⟨hand, List.mem_cons_self, rfl, rfl⟩
        rw [← hlast, Function.update_self] at hsome
        cases hsome
      · refine hkeys.1 (List.mem_map.mpr ⟨n, ?_, rfl⟩)
        rw [← List.dropLast_append_getLast hne] at hn
        exact (List.mem_append.mp hn).resolve_right fun hn => hlast (List.mem_singleton.mp hn)
    · cases hinsert
      exact (List.nodup_cons.mp hr.keys).1 (List.mem_map.mpr ⟨n, hn, rfl⟩)
  · cases hinsert

theorem exists_refines_iff (h : cache.Consistent) (op : Lru.Op Bytes ν) :
    (∃ r, cache.Refines op r) ↔ ¬ op.IsInsert := by
  cases op with
  | insert key value => exact iff_of_false (fun ⟨r, hr⟩ => h.not_insert key value r hr) fun h => h trivial
  | lookup key => exact iff_of_true (h.lookup key) id
  | erase key => exact iff_of_true (h.erase key) id

/-- From a consistent cache, exactly the sequences without an `Insert` refine the model. -/
theorem refinesAll_iff (h : cache.Consistent) (ops : List (Lru.Op Bytes ν)) :
    RefinesAll ops cache ↔ ∀ op ∈ ops, ¬ op.IsInsert := by
  induction ops generalizing cache with
  | nil => exact iff_of_true trivial fun op hop => absurd hop List.not_mem_nil
  | cons op ops ih =>
    rw [RefinesAll, List.forall_mem_cons, ← h.exists_refines_iff op, ← exists_and_right]
    exact exists_congr fun r => and_congr_right fun hr => ih hr.2.1

end Consistent

/-- A cache with its capacity set. -/
theorem consistent_setCapacity (capacity : Nat) :
    (({} : LruCache ν).setCapacity capacity).Consistent where
  length_le := Nat.zero_le _
  keys := .nil
  ids := .nil
  map _ _ := ⟨nofun, fun ⟨_, hn, _⟩ => absurd hn List.not_mem_nil⟩

/-- Calls on one key. -/
def callsOnKey : List (Lru.Op Bytes Nat) := [.lookup [107], .erase [107], .insert [107] 5]

theorem refinesAll_iff_setCapacity :
    RefinesAll callsOnKey (({} : LruCache Nat).setCapacity 2) ↔
      ∀ op ∈ callsOnKey, ¬ op.IsInsert :=
  (consistent_setCapacity 2).refinesAll_iff callsOnKey

/-- The first `Insert` of a cache splices through the end of its map. -/
theorem not_refinesAll :
    ¬ ∀ (capacity : Nat) (ops : List (Lru.Op Bytes Nat)), 1 ≤ capacity →
      RefinesAll ops (({} : LruCache Nat).setCapacity capacity) := by
  intro h
  obtain ⟨r, hr, -⟩ := h 2 [.insert [107] 5] (by decide)
  exact (consistent_setCapacity 2).not_insert [107] 5 r hr

end LruCache
end Yubindb
