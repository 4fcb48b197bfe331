import Mathlib.Data.List.Nodup

/-!
# The least-recently-used policy

A cache of at most `c` entries, the most recently inserted or looked up one first. An insertion into a
full cache leaves out the last entry.
-/

namespace Lru

variable {κ ν : Type*} [DecidableEq κ]

/-- What a client asks of a cache. -/
inductive Op (κ ν : Type*) where
  | insert (key : κ) (value : ν)
  | lookup (key : κ)
  | erase (key : κ)

def Op.IsInsert : Op κ ν → Prop
  | .insert _ _ => True
  | _ => False

/-- The entries with another key. -/
def remove (key : κ) (entries : List (κ × ν)) : List (κ × ν) := entries.filter (·.1 ≠ key)

/-- The value of the first entry with the key. -/
def value? (key : κ) (entries : List (κ × ν)) : Option ν := (entries.find? (·.1 = key)).map Prod.snd

/-- What the client gets, and the entries after it. -/
def step (c : Nat) (entries : List (κ × ν)) : Op κ ν → Option ν × List (κ × ν)
  | .insert key value => (some value, ((key, value) :: remove key entries).take c)
  | .lookup key =>
    match value? key entries with
    | some value => (some value, (key, value) :: remove key entries)
    | none => (none, entries)
  | .erase key => (none, remove key entries)

variable {c : Nat} {key : κ} {entries : List (κ × ν)}

theorem nodup_cons_remove (value : ν) (h : (entries.map Prod.fst).Nodup) :
    (((key, value) :: remove key entries).map Prod.fst).Nodup := by
  refine List.nodup_cons.mpr ⟨?_, h.sublist (List.filter_sublist.map _)⟩
  rintro hmem
  obtain ⟨e, he, rfl⟩ := List.mem_map.mp hmem
  exact of_decide_eq_true (List.mem_filter.mp he).2 rfl

/-- No key occurs twice. -/
theorem nodup_step (op : Op κ ν) (h : (entries.map Prod.fst).Nodup) :
    ((step c entries op).2.map Prod.fst).Nodup := by
  cases op with
  | insert key value => exact (nodup_cons_remove value h).sublist ((List.take_sublist _ _).map _)
  | lookup key =>
    rw [step]
    split
    · exact nodup_cons_remove _ h
    · exact h
  | erase key => exact h.sublist (List.filter_sublist.map _)

theorem length_remove_lt {value : ν} (h : value? key entries = some value) :
    (remove key entries).length < entries.length := by
  obtain ⟨e, he, -⟩ := Option.map_eq_some_iff.mp h
  refine List.length_filter_lt_length_iff_exists.mpr ⟨e, List.mem_of_find?_eq_some he, ?_⟩
  have hkey := List.find?_some he
  simpa using hkey

/-- There are never more than `c` entries. -/
theorem length_step_le (op : Op κ ν) (h : entries.length ≤ c) :
    (step c entries op).2.length ≤ c := by
  cases op with
  | insert key value => exact List.length_take_le _ _
  | lookup key =>
    rw [step]
    split
    · next hvalue => exact Nat.le_trans (Nat.succ_le_of_lt (length_remove_lt hvalue)) h
    · exact h
  | erase key => exact Nat.le_trans (List.length_filter_le _ _) h

/-- An element is the first one with its key when no key occurs twice. -/
theorem find?_of_nodup {α : Type*} {f : α → κ} {l : List α} (h : (l.map f).Nodup) {a : α}
    (ha : a ∈ l) : l.find? (f · = f a) = some a := by
  have hsome : (l.find? (f · = f a)).isSome :=
    List.find?_isSome.mpr ⟨a, ha, decide_eq_true rfl⟩
  obtain ⟨b, hb⟩ := Option.isSome_iff_exists.mp hsome
  have hkey : f b = f a := by simpa using List.find?_some hb
  rw [hb, List.inj_on_of_nodup_map h (List.mem_of_find?_eq_some hb) ha hkey]

end Lru
