import Mathlib.Data.List.Basic

/-!
# Cursors

An iterator is a machine with five calls. `Behaves` says that it cannot be told apart from a cursor on
a list by any sequence of calls that respects the contract: `next` and `prev` only while valid, and
`seek` only for targets that meet `ok`.
-/

namespace Cursor
open Std

/-- The calls. -/
inductive Move (K : Type*)
  | seekToFirst
  | seekToLast
  | seek (target : K)
  | next
  | prev

/-- An iterator with states in `σ`. A call without an outcome, because it does not return or leaves
what the language defines, is `none`. -/
structure Iter (σ K V : Type*) where
  valid : σ → Bool
  key : σ → K
  value : σ → V
  move : Move K → σ → Option σ

variable {σ τ K V : Type*}

/-- What a caller sees. -/
def Iter.current (it : Iter σ K V) (s : σ) : Option (K × V) :=
  if it.valid s then some (it.key s, it.value s) else none

def Iter.run (it : Iter σ K V) : List (Move K) → σ → Option σ
  | [], s => some s
  | m :: ms, s => (it.move m s).bind (it.run ms)

/-! ## The cursor on a list

Positions from the length of the list on are not valid. -/

section
variable (cmp : K → K → Ordering) (ok : K → Prop) (xs : List (K × V))

def move : Move K → ℕ → ℕ
  | .seekToFirst, _ => 0
  | .seekToLast, _ => xs.length - 1
  | .seek target, _ => xs.findIdx fun e => cmp e.1 target ≠ .lt
  | .next, p => p + 1
  | .prev, p => if p = 0 then xs.length else p - 1

def Legal (p : ℕ) : Move K → Prop
  | .seekToFirst => True
  | .seekToLast => True
  | .seek target => ok target
  | .next => p < xs.length
  | .prev => p < xs.length

def LegalRun : ℕ → List (Move K) → Prop
  | _, [] => True
  | p, m :: ms => Legal ok xs p m ∧ LegalRun (move cmp xs m p) ms

/-- From these states on the iterator is a cursor on `xs`, which stands at `p`. -/
def Behaves (it : Iter σ K V) (s : σ) (p : ℕ) : Prop :=
  ∀ ms, LegalRun cmp ok xs p ms →
    ∃ s', it.run ms s = some s' ∧ it.current s' = xs[ms.foldl (fun p m => move cmp xs m p) p]?

end

variable {cmp : K → K → Ordering} {ok : K → Prop} {xs : List (K × V)} {it : Iter σ K V} {s : σ}
  {p : ℕ}

theorem Behaves.current (h : Behaves cmp ok xs it s p) : it.current s = xs[p]? := by
  obtain ⟨s', hrun, hcurrent⟩ := h [] trivial
  cases hrun
  exact hcurrent

theorem Behaves.valid (h : Behaves cmp ok xs it s p) : it.valid s = true ↔ p < xs.length := by
  have := h.current
  rw [Iter.current] at this
  split at this
  · next hvalid =>
    have hlt := List.getElem?_eq_some_iff.mp this.symm
    exact ⟨fun _ => hlt.1, fun _ => hvalid⟩
  · next hvalid =>
    have hle := List.getElem?_eq_none_iff.mp this.symm
    exact ⟨fun h => absurd h hvalid, fun h => absurd h (Nat.not_lt.mpr hle)⟩

theorem Behaves.key_value (h : Behaves cmp ok xs it s p) (hp : p < xs.length) :
    (it.key s, it.value s) = xs[p] := by
  have := h.current
  rw [Iter.current, if_pos (h.valid.mpr hp), List.getElem?_eq_getElem hp] at this
  exact Option.some.inj this

theorem Behaves.move {m : Move K} (h : Behaves cmp ok xs it s p) (hm : Legal ok xs p m) :
    ∃ s', it.move m s = some s' ∧ Behaves cmp ok xs it s' (move cmp xs m p) := by
  obtain ⟨s₁, hrun, _⟩ := h [m] ⟨hm, trivial⟩
  rw [Iter.run] at hrun
  obtain ⟨s', hmove, _⟩ := Option.bind_eq_some_iff.mp hrun
  refine ⟨s', hmove, ?_⟩
  intro ms hms
  obtain ⟨s'', hrun', hcurrent⟩ := h (m :: ms) ⟨hm, hms⟩
  rw [Iter.run, hmove, Option.bind_some] at hrun'
  exact ⟨s'', hrun', hcurrent⟩

/-- A simulation by the cursor. -/
theorem Behaves.of_simulation {R : σ → ℕ → Prop}
    (hcurrent : ∀ s p, R s p → it.current s = xs[p]?)
    (hmove : ∀ s p m, R s p → Legal ok xs p m →
      ∃ s', it.move m s = some s' ∧ R s' (Cursor.move cmp xs m p))
    (h : R s p) : Behaves cmp ok xs it s p := by
  intro ms hms
  induction ms generalizing s p with
  | nil => exact ⟨s, rfl, hcurrent s p h⟩
  | cons m ms ih =>
    obtain ⟨s', hs', hR⟩ := hmove s p m h hms.1
    obtain ⟨s'', hrun, hcur⟩ := ih hR hms.2
    exact ⟨s'', by rw [Iter.run, hs', Option.bind_some, hrun], hcur⟩

/-- An iterator that shows what a cursor shows, and moves as it does, is one. -/
theorem Behaves.of_iter {jt : Iter τ K V} {R : σ → τ → Prop} {t : τ}
    (hcurrent : ∀ s t, R s t → it.current s = jt.current t)
    (hmove : ∀ s t m t', R s t → jt.move m t = some t' → ∃ s', it.move m s = some s' ∧ R s' t')
    (hR : R s t) (h : Behaves cmp ok xs jt t p) : Behaves cmp ok xs it s p := by
  apply Behaves.of_simulation (R := fun s p => ∃ t, R s t ∧ Behaves cmp ok xs jt t p)
  · intro s p ⟨t, hst, ht⟩
    rw [hcurrent s t hst, ht.current]
  · intro s p m ⟨t, hst, ht⟩ hm
    obtain ⟨t', hmt, ht'⟩ := ht.move hm
    obtain ⟨s', hms, hst'⟩ := hmove s t m t' hst hmt
    exact ⟨s', hms, t', hst', ht'⟩
  · exact ⟨t, hR, h⟩

/-- A list with a position in it, as an iterator. -/
def ofList [Inhabited K] [Inhabited V] (cmp : K → K → Ordering) : Iter (List (K × V) × ℕ) K V where
  valid s := s.2 < s.1.length
  key s := (s.1.getD s.2 default).1
  value s := (s.1.getD s.2 default).2
  move m s := some (s.1, move cmp s.1 m s.2)

theorem behaves_ofList [Inhabited K] [Inhabited V] (xs : List (K × V)) (p : ℕ) :
    Behaves cmp ok xs (ofList cmp) (xs, p) p := by
  apply Behaves.of_simulation (R := fun s p => s = (xs, p))
  · intro s p hs
    rw [hs, Iter.current]
    by_cases hp : p < xs.length
    · simp [ofList, hp]
    · simp [ofList, hp]
  · intro s p m hs _
    exact ⟨_, rfl, by rw [hs]⟩
  · rfl

/-! ## Going through the entries -/

/-- What the iterator shows from this state on, with `next` until it is not valid any more. -/
inductive Iter.Shows (it : Iter σ K V) : σ → List (K × V) → Prop
  | nil {s : σ} (h : it.current s = none) : Shows it s []
  | cons {s t : σ} {e : K × V} {es : List (K × V)} (h : it.current s = some e)
    (hnext : it.move .next s = some t) (hrest : Shows it t es) : Shows it s (e :: es)

/-- What it shows behind `seekToFirst`. -/
def Iter.Yields (it : Iter σ K V) (s : σ) (es : List (K × V)) : Prop :=
  ∃ t, it.move .seekToFirst s = some t ∧ it.Shows t es

theorem Iter.Shows.unique {es es' : List (K × V)} (h : it.Shows s es) (h' : it.Shows s es') :
    es = es' := by
  induction h generalizing es' with
  | nil h =>
    cases h' with
    | nil => rfl
    | cons h' => cases h.symm.trans h'
  | cons h hnext _ ih =>
    cases h' with
    | nil h' => cases h.symm.trans h'
    | cons h' hnext' hrest' =>
      cases h.symm.trans h'
      cases hnext.symm.trans hnext'
      rw [ih hrest']

theorem Iter.Yields.unique {es es' : List (K × V)} (h : it.Yields s es) (h' : it.Yields s es') :
    es = es' := by
  obtain ⟨t, hmove, hshows⟩ := h
  obtain ⟨t', hmove', hshows'⟩ := h'
  cases hmove.symm.trans hmove'
  exact hshows.unique hshows'

theorem Behaves.shows (h : Behaves cmp ok xs it s p) : it.Shows s (xs.drop p) := by
  induction hn : xs.length - p generalizing s p with
  | zero =>
    have hp : xs.length ≤ p := Nat.le_of_sub_eq_zero hn
    rw [List.drop_eq_nil_of_le hp]
    exact .nil (h.current.trans (List.getElem?_eq_none hp))
  | succ n ih =>
    have hp : p < xs.length := Nat.lt_of_sub_eq_succ hn
    obtain ⟨t, hnext, ht⟩ := h.move (m := .next) hp
    have hrest : it.Shows t (xs.drop (p + 1)) := ih ht (by omega)
    rw [List.drop_eq_getElem_cons hp]
    exact .cons (h.current.trans (List.getElem?_eq_getElem hp)) hnext hrest

/-- A cursor yields its list. -/
theorem Behaves.yields (h : Behaves cmp ok xs it s p) : it.Yields s xs := by
  obtain ⟨t, hfirst, ht⟩ := h.move (m := .seekToFirst) trivial
  exact ⟨t, hfirst, ht.shows⟩

end Cursor
