import Mathlib.Data.List.Forall2
import Mathlib.Data.List.Induction
import Yubindb.Db.Iterator
import Yubindb.Theory.Ascending

/-!
# The merging iterator

In the forward direction every child stands at its first entry that is not below the current key, in
the reverse direction at its last entry up to the current key.
-/

namespace Yubindb
open Cursor Std

/-! ## Wrappers -/

namespace IteratorWrapper
variable {σ : Type} {it : Iterator σ}

/-- The wrapper keeps what its iterator shows. -/
structure InStep (it : Iterator σ) (w : IteratorWrapper σ) (s : σ) : Prop where
  iter : w.iter = some s
  valid : w.valid = it.valid s
  key : it.valid s → w.key = it.key s

theorem inStep_update (w : IteratorWrapper σ) (s : σ) : (w.update it s).InStep it s :=
  ⟨rfl, rfl, fun h => if_pos h⟩

theorem InStep.behaves {w : IteratorWrapper σ} {s : σ} {ok : Bytes → Prop}
    {xs : List (Bytes × Bytes)} {p : ℕ} (hw : w.InStep it s) (h : Behaves cmp ok xs it s p) :
    Behaves cmp ok xs (iterator it) w p := by
  refine Behaves.of_iter (R := InStep it) ?_ ?_ hw h
  · intro w s hw
    have hvalue : (iterator it).value w = it.value s := by simp [iterator, hw.iter]
    rw [Iter.current, Iter.current, hvalue, show (iterator it).valid w = w.valid from rfl, hw.valid]
    split
    · next hvalid => rw [← hw.key hvalid]; rfl
    · rfl
  · intro w s m s' hw hs'
    refine ⟨w.update it s', ?_, inStep_update w s'⟩
    simp [iterator, hw.iter, hs']

end IteratorWrapper

/-! ## Loops over the children -/

theorem exists_mapM {α β : Type} {f : α → Option β} {Q : ℕ → β → Prop} {l : List α}
    (h : ∀ i (hi : i < l.length), ∃ b, f l[i] = some b ∧ Q i b) :
    ∃ l', l.mapM f = some l' ∧ l'.length = l.length ∧ ∀ i (hi : i < l'.length), Q i l'[i] := by
  induction l generalizing Q with
  | nil => exact ⟨[], rfl, rfl, fun i hi => absurd hi (Nat.not_lt_zero i)⟩
  | cons a l ih =>
    obtain ⟨b, hb, hQ⟩ := h 0 (Nat.zero_lt_succ _)
    obtain ⟨l', hl', hlen, hall⟩ := @ih (fun i => Q (i + 1)) fun i hi =>
      h (i + 1) (Nat.succ_lt_succ hi)
    rw [List.getElem_cons_zero] at hb
    refine ⟨b :: l', by simp [List.mapM_cons, hb, hl'], by simp [hlen], ?_⟩
    intro i hi
    cases i with
    | zero => exact hQ
    | succ i => exact hall i (Nat.lt_of_succ_lt_succ hi)

namespace Merageitor
variable {σ : Type}

section
variable {better : Bytes → Bytes → Bool}

/-- The last turn of the loop. -/
theorem pick_append (better : Bytes → Bytes → Bool) (children : List (IteratorWrapper σ × ℕ))
    (c : IteratorWrapper σ × ℕ) :
    pick better (children ++ [c]) = if c.1.valid then
      match pick better children with
      | none => some c
      | some best => if better c.1.key best.1.key then some c else some best
      else pick better children := by
  rw [pick, List.foldl_append]
  rfl

/-- The child that the loop finds is valid, and none of the valid ones is better. -/
theorem pick_spec (hirrefl : ∀ a, better a a = false)
    (htrans : ∀ a b c, better a b → better b c → better a c)
    (children : List (IteratorWrapper σ × ℕ)) :
    match pick better children with
    | none => ∀ c ∈ children, c.1.valid = false
    | some best => best ∈ children ∧ best.1.valid = true ∧
        ∀ c ∈ children, c.1.valid = true → better c.1.key best.1.key = false := by
  induction children using List.reverseRecOn with
  | nil => exact fun c hc => by cases hc
  | append_singleton children c ih =>
    rw [pick_append]
    cases hfound : pick better children with
    | none =>
      rw [hfound] at ih
      cases hvalid : c.1.valid with
      | false => exact List.forall_mem_append.mpr ⟨ih, List.forall_mem_singleton.mpr hvalid⟩
      | true =>
        refine ⟨List.mem_append_right _ List.mem_cons_self, hvalid, ?_⟩
        refine List.forall_mem_append.mpr ⟨fun x hx hxvalid => ?_, ?_⟩
        · rw [ih x hx] at hxvalid
          cases hxvalid
        · exact List.forall_mem_singleton.mpr fun _ => hirrefl _
    | some best =>
      rw [hfound] at ih
      obtain ⟨hbest, hbestvalid, hmax⟩ := ih
      have hstays := List.mem_append_left [c] hbest
      cases hvalid : c.1.valid with
      | false =>
        refine ⟨hstays, hbestvalid, List.forall_mem_append.mpr ⟨hmax, ?_⟩⟩
        refine List.forall_mem_singleton.mpr fun hcvalid => ?_
        rw [hvalid] at hcvalid
        cases hcvalid
      | true =>
        cases hc : better c.1.key best.1.key with
        | true =>
          simp only [if_true, hc]
          refine ⟨List.mem_append_right _ List.mem_cons_self, hvalid, ?_⟩
          refine List.forall_mem_append.mpr ⟨fun x hx hxvalid => ?_, ?_⟩
          · -- better than the new one is better than the old one
            by_contra hne
            have hbetter := htrans _ _ _ (Bool.of_not_eq_false hne) hc
            rw [hmax x hx hxvalid] at hbetter
            cases hbetter
          · exact List.forall_mem_singleton.mpr fun _ => hirrefl _
        | false =>
          simp only [if_true, hc, Bool.false_eq_true, if_false]
          refine ⟨hstays, hbestvalid, List.forall_mem_append.mpr ⟨hmax, ?_⟩⟩
          exact List.forall_mem_singleton.mpr fun _ => hc

/-- What `FindSmallest` and `FindLargest` look for. -/
def Found (le : Bytes → Bytes → Prop) (children : List (IteratorWrapper σ)) : Option ℕ → Prop
  | none => ∀ w ∈ children, w.valid = false
  | some i => ∃ w, children[i]? = some w ∧ w.valid = true ∧
      ∀ w' ∈ children, w'.valid = true → le w.key w'.key

theorem found_pick {le : Bytes → Bytes → Prop} (hirrefl : ∀ a, better a a = false)
    (htrans : ∀ a b c, better a b → better b c → better a c)
    (hle : ∀ a b, better b a = false → le a b)
    {children : List (IteratorWrapper σ)} {l : List (IteratorWrapper σ × ℕ)}
    (hl : ∀ x, x ∈ l ↔ x ∈ children.zipIdx) :
    Found le children ((pick better l).map Prod.snd) := by
  have hspec := pick_spec hirrefl htrans l
  have hzip (w : IteratorWrapper σ) (hw : w ∈ children) : ∃ i, (w, i) ∈ l := by
    obtain ⟨i, hi, rfl⟩ := List.getElem_of_mem hw
    refine ⟨i, (hl _).mpr ?_⟩
    exact List.mk_mem_zipIdx_iff_getElem?.mpr (List.getElem?_eq_getElem hi)
  cases hpick : pick better l with
  | none =>
    rw [hpick] at hspec
    intro w hw
    obtain ⟨i, hi⟩ := hzip w hw
    exact hspec _ hi
  | some best =>
    rw [hpick] at hspec
    obtain ⟨hbest, hvalid, hmax⟩ := hspec
    refine ⟨best.1, List.mk_mem_zipIdx_iff_getElem?.mp ((hl _).mp hbest), hvalid, ?_⟩
    intro w hw hwvalid
    obtain ⟨i, hi⟩ := hzip w hw
    exact hle _ _ (hmax _ hi hwvalid)

end

theorem found_findSmallest (children : List (IteratorWrapper σ)) :
    Found (fun a b => (cmp a b).isLE) children (findSmallest children) := by
  refine found_pick ?_ ?_ ?_ (fun _ => Iff.rfl)
  · intro a
    simp [@ReflCmp.compare_self _ cmp]
  · intro a b c hab hbc
    rw [decide_eq_true_eq] at hab hbc ⊢
    exact TransCmp.lt_trans hab hbc
  · intro a b hle
    rw [decide_eq_false_iff_not] at hle
    rw [@OrientedCmp.eq_swap _ cmp]
    cases h : cmp b a <;> simp_all

theorem found_findLargest (children : List (IteratorWrapper σ)) :
    Found (fun a b => (cmp b a).isLE) children (findLargest children) := by
  refine found_pick ?_ ?_ ?_ (fun _ => List.mem_reverse)
  · intro a
    simp [@ReflCmp.compare_self _ cmp]
  · intro a b c hab hbc
    rw [decide_eq_true_eq] at hab hbc ⊢
    exact TransCmp.gt_trans hab hbc
  · intro a b hle
    rw [decide_eq_false_iff_not] at hle
    cases h : cmp b a <;> simp_all

/-! ## Where the children stand -/

/-- The lists of the children, without a key in two of them, and their sorted union. -/
structure Lists (ok : Bytes → Prop) (lists : List (List (Bytes × Bytes)))
    (merged : List (Bytes × Bytes)) : Prop where
  ascending : ∀ xs ∈ lists, Ascending cmp xs
  apart : ∀ i j (hi : i < lists.length) (hj : j < lists.length), i ≠ j →
    ∀ a ∈ lists[i], ∀ b ∈ lists[j], cmp a.1 b.1 ≠ .eq
  ok : ∀ xs ∈ lists, ∀ e ∈ xs, ok e.1
  merged_ascending : Ascending cmp merged
  mem_merged : ∀ e, e ∈ merged ↔ ∃ xs ∈ lists, e ∈ xs

/-- Every child stands where `pos` says. -/
structure ChildrenAt (it : Iterator σ) (ok : Bytes → Prop) (lists : List (List (Bytes × Bytes)))
    (pos : List (Bytes × Bytes) → ℕ) (children : List (IteratorWrapper σ)) : Prop where
  length : children.length = lists.length
  behaves : ∀ i (hi : i < children.length) (hi' : i < lists.length),
    Behaves cmp ok lists[i] (IteratorWrapper.iterator it) children[i] (pos lists[i])

/-- Where a child stands when `k` is the current key. -/
def position (k : Bytes) : Direction → List (Bytes × Bytes) → ℕ
  | .forward, xs => cut (below cmp k) xs
  | .reverse, xs => before xs.length (cut (upto cmp k) xs)

/-- The invariant. -/
structure Stands (it : Iterator σ) (ok : Bytes → Prop) (lists : List (List (Bytes × Bytes)))
    (merged : List (Bytes × Bytes)) (m : Merageitor σ) (p : ℕ) : Prop where
  length : m.children.length = lists.length
  children : ∀ i (hi : i < m.children.length) (hi' : i < lists.length), ∃ q,
    Behaves cmp ok lists[i] (IteratorWrapper.iterator it) m.children[i] q
  current : match m.current with
    | none => merged.length ≤ p
    | some i => ∃ e xs, merged[p]? = some e ∧ lists[i]? = some xs ∧ e ∈ xs ∧
        ChildrenAt it ok lists (position e.1 m.direction) m.children

section
variable {it : Iterator σ} {ok : Bytes → Prop} {lists : List (List (Bytes × Bytes))}
  {merged : List (Bytes × Bytes)} {m : Merageitor σ} {p : ℕ}
  {pos pos' : List (Bytes × Bytes) → ℕ} {children : List (IteratorWrapper σ)}

/-- A call that takes a child to a position which does not depend on where it was. -/
theorem mapM_children (call : Move Bytes) (h : Stands it ok lists merged m p)
    (hlegal : ∀ (xs : List (Bytes × Bytes)) q, Legal ok xs q call)
    (hmove : ∀ xs ∈ lists, ∀ q, Cursor.move cmp xs call q = pos xs) :
    ∃ children, m.children.mapM ((IteratorWrapper.iterator it).move call) = some children ∧
      ChildrenAt it ok lists pos children := by
  obtain ⟨children, hmap, hlen, hall⟩ := exists_mapM
    (f := (IteratorWrapper.iterator it).move call) (l := m.children)
    (Q := fun i w => ∀ hi : i < lists.length,
      Behaves cmp ok lists[i] (IteratorWrapper.iterator it) w (pos lists[i])) (by
    intro i hi
    have hi' := hi.trans_eq h.length
    obtain ⟨q, hq⟩ := h.children i hi hi'
    obtain ⟨w, hw, hbehaves⟩ := hq.move (hlegal _ _)
    rw [hmove _ (List.getElem_mem hi')] at hbehaves
    exact ⟨w, hw, fun _ => hbehaves⟩)
  exact ⟨children, hmap, hlen.trans h.length, fun i hi hi' => hall i hi hi'⟩

theorem turn_children (pos' : List (Bytes × Bytes) → ℕ) {i : ℕ} {f : IteratorWrapper σ → Option (IteratorWrapper σ)}
    (h : ChildrenAt it ok lists pos children)
    (hf : ∀ j (hj : j < lists.length), j ≠ i → ∀ w,
      Behaves cmp ok lists[j] (IteratorWrapper.iterator it) w (pos lists[j]) →
        ∃ w', f w = some w' ∧
          Behaves cmp ok lists[j] (IteratorWrapper.iterator it) w' (pos' lists[j]))
    (hi : ∀ hi : i < lists.length, pos lists[i] = pos' lists[i]) :
    ∃ children', turn f i children = some children' ∧ ChildrenAt it ok lists pos' children' := by
  obtain ⟨children', hmap, hlen, hall⟩ := exists_mapM
    (f := fun child : IteratorWrapper σ × ℕ => if child.2 ≠ i then f child.1 else some child.1)
    (l := children.zipIdx)
    (Q := fun j w => ∀ hj : j < lists.length,
      Behaves cmp ok lists[j] (IteratorWrapper.iterator it) w (pos' lists[j])) (by
    intro j hj
    rw [List.length_zipIdx] at hj
    have hj' := hj.trans_eq h.length
    have hat := h.behaves j hj hj'
    rw [List.getElem_zipIdx, Nat.zero_add]
    by_cases hji : j = i
    · subst hji
      exact ⟨_, if_neg (not_not.mpr rfl), fun _ => hi hj' ▸ hat⟩
    · obtain ⟨w, hw, hbehaves⟩ := hf j hj' hji _ hat
      exact ⟨w, (if_pos hji).trans hw, fun _ => hbehaves⟩)
  rw [List.length_zipIdx] at hlen
  exact ⟨children', hmap, hlen.trans h.length, fun j hj hj' => hall j hj hj'⟩

theorem moveCurrent_children (call : Move Bytes) (pos' : List (Bytes × Bytes) → ℕ) {i : ℕ} (hi : i < lists.length)
    (h : ChildrenAt it ok lists pos children) (hlegal : Legal ok lists[i] (pos lists[i]) call)
    (hmove : Cursor.move cmp lists[i] call (pos lists[i]) = pos' lists[i])
    (hother : ∀ j (hj : j < lists.length), j ≠ i → pos lists[j] = pos' lists[j]) :
    ∃ children', moveCurrent it call i children = some children' ∧
      ChildrenAt it ok lists pos' children' := by
  have hic := hi.trans_eq h.length.symm
  obtain ⟨w, hw, hbehaves⟩ := (h.behaves i hic hi).move hlegal
  refine ⟨children.set i w, ?_, ?_, ?_⟩
  · simp [moveCurrent, List.getElem?_eq_getElem hic, hw]
  · rw [List.length_set, h.length]
  · intro j hj hj'
    rw [List.length_set] at hj
    by_cases hji : j = i
    · subst hji
      rw [List.getElem_set_self, ← hmove]
      exact hbehaves
    · rw [List.getElem_set_ne (Ne.symm hji), ← hother j hj' hji]
      exact h.behaves j hj hj'

theorem ChildrenAt.stands (h : ChildrenAt it ok lists pos children) {current : Option ℕ}
    {direction : Direction}
    (hcurrent : match current with
      | none => merged.length ≤ p
      | some i => ∃ e xs, merged[p]? = some e ∧ lists[i]? = some xs ∧ e ∈ xs ∧
          ChildrenAt it ok lists (position e.1 direction) children) :
    Stands it ok lists merged { children, current, direction } p :=
  ⟨h.length, fun i hi hi' => ⟨_, h.behaves i hi hi'⟩, hcurrent⟩

theorem ChildrenAt.congr (h : ChildrenAt it ok lists pos children)
    (hpos : ∀ xs ∈ lists, pos xs = pos' xs) : ChildrenAt it ok lists pos' children :=
  ⟨h.length, fun i hi hi' => hpos _ (List.getElem_mem hi') ▸ h.behaves i hi hi'⟩

/-- What a valid child shows. -/
theorem ChildrenAt.shows (h : ChildrenAt it ok lists pos children) {i : ℕ} {w : IteratorWrapper σ}
    (hw : children[i]? = some w) (hvalid : w.valid = true) :
    ∃ xs e, lists[i]? = some xs ∧ xs ∈ lists ∧ xs[pos xs]? = some e ∧ w.key = e.1 := by
  obtain ⟨hi, rfl⟩ := List.getElem?_eq_some_iff.mp hw
  have hi' := hi.trans_eq h.length
  have hat := h.behaves i hi hi'
  have hlt := hat.valid.mp hvalid
  refine ⟨lists[i], _, List.getElem?_eq_getElem hi', List.getElem_mem hi',
    List.getElem?_eq_getElem hlt, ?_⟩
  exact congrArg Prod.fst (hat.key_value hlt)

/-- What a child that stands at an entry shows. -/
theorem ChildrenAt.shown (h : ChildrenAt it ok lists pos children) {xs : List (Bytes × Bytes)}
    {e : Bytes × Bytes} (hxs : xs ∈ lists) (he : xs[pos xs]? = some e) :
    ∃ w ∈ children, w.valid = true ∧ w.key = e.1 := by
  obtain ⟨i, hi', rfl⟩ := List.getElem_of_mem hxs
  have hi := hi'.trans_eq h.length.symm
  have hat := h.behaves i hi hi'
  obtain ⟨hlt, he⟩ := List.getElem?_eq_some_iff.mp he
  refine ⟨children[i], List.getElem_mem hi, hat.valid.mpr hlt, ?_⟩
  rw [← he]
  exact congrArg Prod.fst (hat.key_value hlt)

/-- Where no child is valid, each one stands at its end. -/
theorem ChildrenAt.length_le_of_found {le : Bytes → Bytes → Prop}
    (h : ChildrenAt it ok lists pos children) (hfound : Found le children none) :
    ∀ xs ∈ lists, xs.length ≤ pos xs := by
  intro xs hxs
  by_contra hlt
  have hlt := Nat.not_le.mp hlt
  obtain ⟨w, hw, hvalid, -⟩ := h.shown hxs (List.getElem?_eq_getElem hlt)
  rw [hfound w hw] at hvalid
  cases hvalid

/-- The entry of the child that was found is the first of those at which the children stand. -/
theorem ChildrenAt.entry_of_found {le : Bytes → Bytes → Prop} {i : ℕ}
    (h : ChildrenAt it ok lists pos children) (hfound : Found le children (some i)) :
    ∃ xs e, lists[i]? = some xs ∧ xs ∈ lists ∧ xs[pos xs]? = some e ∧
      ∀ ys ∈ lists, ∀ e', ys[pos ys]? = some e' → le e.1 e'.1 := by
  obtain ⟨w, hw, hvalid, hfirst⟩ := hfound
  obtain ⟨xs, e, hxs, hmem, he, hkey⟩ := h.shows hw hvalid
  refine ⟨xs, e, hxs, hmem, he, fun ys hys e' he' => ?_⟩
  obtain ⟨w', hw', hvalid', hkey'⟩ := h.shown hys he'
  rw [← hkey, ← hkey']
  exact hfirst w' hw' hvalid'

/-- A cut of the union depends on the cuts of the lists only. -/
theorem Lists.cut_merged_congr {P Q : Bytes → Bool} (hlists : Lists ok lists merged)
    (hPQ : ∀ xs ∈ lists, ∀ e ∈ xs, P e.1 = Q e.1) : cut P merged = cut Q merged := by
  refine cut_congr fun e he => ?_
  obtain ⟨xs, hxs, hexs⟩ := (hlists.mem_merged e).mp he
  exact hPQ xs hxs e hexs

/-- The children stand right behind a cut. -/
theorem stands_findSmallest {P : Bytes → Bool} (hlists : Lists ok lists merged) (hP : Down cmp P)
    (h : ChildrenAt it ok lists (cut P) children) :
    Stands it ok lists merged
      { children, current := findSmallest children, direction := .forward } (cut P merged) := by
  have hfound := found_findSmallest children
  apply h.stands
  cases hsmallest : findSmallest children with
  | none =>
    rw [hsmallest] at hfound
    have hall : ∀ e ∈ merged, P e.1 = true := by
      intro e he
      obtain ⟨xs, hxs, hexs⟩ := (hlists.mem_merged e).mp he
      obtain ⟨j, hj, rfl⟩ := List.getElem_of_mem hexs
      have hend := h.length_le_of_found hfound xs hxs
      exact (lt_cut_iff (hlists.ascending xs hxs) hP hj).mp (hj.trans_le hend)
    exact (List.countP_eq_length.mpr hall).ge
  | some i =>
    rw [hsmallest] at hfound
    obtain ⟨xs, e, hxs, hmem, he, hfirst⟩ := h.entry_of_found hfound
    obtain ⟨hlt, hget⟩ := List.getElem?_eq_some_iff.mp he
    have hexs : e ∈ xs := hget ▸ List.getElem_mem hlt
    have hPe : P e.1 = false := by
      rw [← Bool.not_eq_true, ← hget, ← lt_cut_iff (hlists.ascending xs hmem) hP hlt]
      exact Nat.lt_irrefl _
    have hbelow : ∀ ys ∈ lists, ∀ e' ∈ ys, P e'.1 = below cmp e.1 e'.1 := fun ys hys =>
      eq_below_of_first (hlists.ascending ys hys) hP hPe (hfirst ys hys)
    refine ⟨e, xs, ?_, hxs, hexs, ?_⟩
    · rw [hlists.cut_merged_congr hbelow]
      exact getElem?_cut_below hlists.merged_ascending ((hlists.mem_merged e).mpr ⟨xs, hmem, hexs⟩)
    · exact h.congr fun ys hys => cut_congr (hbelow ys hys)

/-- The children stand right in front of a cut. -/
theorem stands_findLargest {P : Bytes → Bool} (hlists : Lists ok lists merged) (hP : Down cmp P)
    (h : ChildrenAt it ok lists (fun xs => before xs.length (cut P xs)) children) :
    Stands it ok lists merged
      { children, current := findLargest children, direction := .reverse }
      (before merged.length (cut P merged)) := by
  have hfound := found_findLargest children
  apply h.stands
  cases hlargest : findLargest children with
  | none =>
    rw [hlargest] at hfound
    have hnone : ∀ e ∈ merged, ¬ P e.1 = true := by
      intro e he hPe
      obtain ⟨xs, hxs, hexs⟩ := (hlists.mem_merged e).mp he
      obtain ⟨j, hj, rfl⟩ := List.getElem_of_mem hexs
      have hcut := (lt_cut_iff (hlists.ascending xs hxs) hP hj).mpr hPe
      have hend : xs.length ≤ before xs.length (cut P xs) := h.length_le_of_found hfound xs hxs
      have hle := @cut_le_length _ _ P xs
      rw [before, if_neg (by omega)] at hend
      omega
    have hzero : cut P merged = 0 := List.countP_eq_zero.mpr hnone
    rw [hzero]
    exact Nat.le_refl merged.length
  | some i =>
    rw [hlargest] at hfound
    obtain ⟨xs, e, hxs, hmem, he, hlast⟩ := h.entry_of_found hfound
    obtain ⟨hlt, hget⟩ := List.getElem?_eq_some_iff.mp he
    have hexs : e ∈ xs := hget ▸ List.getElem_mem hlt
    have hPe : P e.1 = true := by
      have hpos : cut P xs ≠ 0 := by
        intro hzero
        rw [before, if_pos hzero] at hlt
        exact Nat.lt_irrefl _ hlt
      rw [← hget, ← lt_cut_iff (hlists.ascending xs hmem) hP hlt, before, if_neg hpos]
      omega
    have hupto : ∀ ys ∈ lists, ∀ e' ∈ ys, P e'.1 = upto cmp e.1 e'.1 := fun ys hys =>
      eq_upto_of_last (hlists.ascending ys hys) hP hPe (hlast ys hys)
    have hin : e ∈ merged := (hlists.mem_merged e).mpr ⟨xs, hmem, hexs⟩
    refine ⟨e, xs, ?_, hxs, hexs, ?_⟩
    · obtain ⟨j, hj, rfl⟩ := List.getElem_of_mem hin
      rw [hlists.cut_merged_congr hupto, cut_upto_getElem hlists.merged_ascending hj, before,
        if_neg (Nat.succ_ne_zero j)]
      exact List.getElem?_eq_getElem hj
    · exact h.congr fun ys hys => congrArg (before ys.length) (cut_congr (hupto ys hys))

/-! ## The calls -/

theorem seek_eq_cut {xs : List (Bytes × Bytes)} (hxs : Ascending cmp xs) (target : Bytes) :
    (xs.findIdx fun e => cmp e.1 target ≠ .lt) = cut (below cmp target) xs := by
  rw [← findIdx_eq_cut hxs (down_below target)]
  simp only [below, decide_not]

theorem stands_moveForward {call : Move Bytes} {P : Bytes → Bool} (hlists : Lists ok lists merged)
    (hP : Down cmp P) (h : Stands it ok lists merged m p)
    (hlegal : ∀ (xs : List (Bytes × Bytes)) q, Legal ok xs q call)
    (hmove : ∀ xs : List (Bytes × Bytes), Ascending cmp xs → ∀ q, Cursor.move cmp xs call q = cut P xs) :
    ∃ m', moveForward it call m = some m' ∧
      Stands it ok lists merged m' (Cursor.move cmp merged call p) := by
  obtain ⟨children, hmap, hat⟩ := mapM_children call h hlegal fun xs hxs =>
    hmove xs (hlists.ascending xs hxs)
  refine ⟨_, by rw [moveForward, hmap]; rfl, ?_⟩
  rw [hmove merged hlists.merged_ascending]
  exact stands_findSmallest hlists hP hat

theorem stands_seekToLast (hlists : Lists ok lists merged) (h : Stands it ok lists merged m p) :
    ∃ m', seekToLast it m = some m' ∧
      Stands it ok lists merged m' (Cursor.move cmp merged .seekToLast p) := by
  have hlast (xs : List (Bytes × Bytes)) (q : ℕ) :
      Cursor.move cmp xs .seekToLast q = before xs.length (cut (fun _ => true) xs) := by
    have : cut (fun _ => true) xs = xs.length := congrFun List.countP_true xs
    rw [this, before]
    split
    · next hzero => simp [Cursor.move, hzero]
    · rfl
  obtain ⟨children, hmap, hat⟩ := mapM_children .seekToLast h (fun _ _ => trivial)
    fun xs _ q => hlast xs q
  refine ⟨_, by rw [seekToLast, hmap]; rfl, ?_⟩
  rw [hlast]
  exact stands_findLargest hlists (fun _ _ _ _ => rfl) hat

/-- The entry of the current child, and the cuts around it. -/
structure Current (lists : List (List (Bytes × Bytes))) (merged : List (Bytes × Bytes)) (i : ℕ)
    (k : Bytes) (p : ℕ) : Prop where
  lt : i < lists.length
  merged_below : cut (below cmp k) merged = p
  merged_upto : cut (upto cmp k) merged = p + 1
  current_lt : cut (below cmp k) lists[i] < lists[i].length
  current_upto : cut (upto cmp k) lists[i] = cut (below cmp k) lists[i] + 1
  other : ∀ j (hj : j < lists.length), j ≠ i →
    cut (upto cmp k) lists[j] = cut (below cmp k) lists[j]
  other_ne : ∀ j (hj : j < lists.length), j ≠ i → ∀ e ∈ lists[j], cmp k e.1 ≠ .eq

theorem Lists.current (hlists : Lists ok lists merged) {e : Bytes × Bytes}
    {xs : List (Bytes × Bytes)} {i : ℕ} (he : merged[p]? = some e) (hxs : lists[i]? = some xs)
    (hexs : e ∈ xs) : Current lists merged i e.1 p := by
  obtain ⟨hp, rfl⟩ := List.getElem?_eq_some_iff.mp he
  obtain ⟨hi, rfl⟩ := List.getElem?_eq_some_iff.mp hxs
  have hasc := hlists.ascending _ (List.getElem_mem hi)
  obtain ⟨q, hq, hget⟩ := List.getElem_of_mem hexs
  have hne (j : ℕ) (hj : j < lists.length) (hji : j ≠ i) (e : Bytes × Bytes)
      (he : e ∈ lists[j]) : cmp merged[p].1 e.1 ≠ .eq :=
    hlists.apart i j hi hj (Ne.symm hji) _ hexs _ he
  refine ⟨hi, cut_below_getElem hlists.merged_ascending hp,
    cut_upto_getElem hlists.merged_ascending hp, ?_, ?_, ?_, hne⟩
  · rw [← hget, cut_below_getElem hasc hq]
    exact hq
  · rw [← hget, cut_below_getElem hasc hq, cut_upto_getElem hasc hq]
  · intro j hj hji
    refine cut_upto_eq_below fun e he heq => hne j hj hji e he ?_
    rwa [@OrientedCmp.eq_comm _ cmp]

/-- A child that `Next` takes behind the current key. -/
theorem turnForward_behaves {xs : List (Bytes × Bytes)} {w : IteratorWrapper σ} {k : Bytes} {q : ℕ}
    (hxs : Ascending cmp xs) (hk : ok k) (hne : ∀ e ∈ xs, cmp k e.1 ≠ .eq)
    (h : Behaves cmp ok xs (IteratorWrapper.iterator it) w q) :
    ∃ w', turnForward it k w = some w' ∧
      Behaves cmp ok xs (IteratorWrapper.iterator it) w' (cut (below cmp k) xs) := by
  obtain ⟨w', hw', hat⟩ := h.move (m := .seek k) hk
  rw [Cursor.move, seek_eq_cut hxs] at hat
  refine ⟨w', ?_, hat⟩
  have hstay : ¬ (w'.valid = true ∧ cmp k w'.key = .eq) := by
    intro ⟨hvalid, heq⟩
    have hlt := hat.valid.mp hvalid
    have hkey : w'.key = (xs[cut (below cmp k) xs]).1 := congrArg Prod.fst (hat.key_value hlt)
    rw [hkey] at heq
    exact hne _ (List.getElem_mem hlt) heq
  rw [turnForward, hw']
  exact if_neg hstay

/-- A child that `Prev` takes in front of the current key. -/
theorem turnReverse_behaves {xs : List (Bytes × Bytes)} {w : IteratorWrapper σ} {k : Bytes} {q : ℕ}
    (hxs : Ascending cmp xs) (hk : ok k)
    (h : Behaves cmp ok xs (IteratorWrapper.iterator it) w q) :
    ∃ w', turnReverse it k w = some w' ∧
      Behaves cmp ok xs (IteratorWrapper.iterator it) w'
        (before xs.length (cut (below cmp k) xs)) := by
  obtain ⟨w₁, hw₁, hat⟩ := h.move (m := .seek k) hk
  rw [Cursor.move, seek_eq_cut hxs] at hat
  rw [turnReverse, hw₁, Option.bind_eq_bind, Option.bind_some]
  by_cases hvalid : w₁.valid = true
  · rw [if_pos hvalid]
    obtain ⟨w', hw', hbehaves⟩ := hat.move (m := .prev) (hat.valid.mp hvalid)
    exact ⟨w', hw', hbehaves⟩
  · rw [if_neg hvalid]
    obtain ⟨w', hw', hbehaves⟩ := hat.move (m := .seekToLast) trivial
    refine ⟨w', hw', ?_⟩
    have hend : cut (below cmp k) xs = xs.length :=
      Nat.le_antisymm cut_le_length (Nat.not_lt.mp fun hlt => hvalid (hat.valid.mpr hlt))
    rw [hend, before]
    rw [Cursor.move] at hbehaves
    split
    · next hzero => rwa [hzero] at hbehaves ⊢
    · exact hbehaves

/-- The current child, from the invariant. -/
theorem Stands.current_child (hlists : Lists ok lists merged) (h : Stands it ok lists merged m p)
    (hp : p < merged.length) :
    ∃ i w e, m.current = some i ∧ m.currentChild = some w ∧ merged[p]? = some e ∧
      w.key = e.1 ∧ (IteratorWrapper.iterator it).value w = e.2 ∧ ok e.1 ∧
      Current lists merged i e.1 p ∧ ChildrenAt it ok lists (position e.1 m.direction) m.children := by
  have hcurrent := h.current
  cases hi : m.current with
  | none =>
    rw [hi] at hcurrent
    exact absurd hp (Nat.not_lt.mpr hcurrent)
  | some i =>
    rw [hi] at hcurrent
    obtain ⟨e, xs, he, hxs, hexs, hat⟩ := hcurrent
    have hc := hlists.current he hxs hexs
    obtain ⟨hlt, rfl⟩ := List.getElem?_eq_some_iff.mp hxs
    have hasc := hlists.ascending _ (List.getElem_mem hlt)
    have hic := hlt.trans_eq h.length.symm
    have hbehaves := hat.behaves i hic hlt
    have hposition : position e.1 m.direction lists[i] = cut (below cmp e.1) lists[i] := by
      cases m.direction with
      | forward => rfl
      | reverse => rw [position, hc.current_upto, before, if_neg (Nat.succ_ne_zero _)]; rfl
    rw [hposition] at hbehaves
    have hshow := hbehaves.key_value hc.current_lt
    rw [(List.getElem?_eq_some_iff.mp (getElem?_cut_below hasc hexs)).2] at hshow
    refine ⟨i, m.children[i], e, rfl, ?_, he, congrArg Prod.fst hshow, congrArg Prod.snd hshow,
      hlists.ok _ (List.getElem_mem hlt) e hexs, hc, hat⟩
    rw [currentChild, hi]
    exact List.getElem?_eq_getElem hic

theorem Stands.current_eq (hlists : Lists ok lists merged) (h : Stands it ok lists merged m p) :
    (iterator it).current m = merged[p]? := by
  by_cases hp : p < merged.length
  · obtain ⟨i, w, e, hi, hw, he, hkey, hvalue, -⟩ := h.current_child hlists hp
    simp [Iter.current, iterator, hi, hw, he, hkey, hvalue]
  · have hcurrent := h.current
    rw [List.getElem?_eq_none (Nat.not_lt.mp hp)]
    cases hi : m.current with
    | none => simp [Iter.current, iterator, hi]
    | some i =>
      rw [hi] at hcurrent
      obtain ⟨e, xs, he, -⟩ := hcurrent
      exact absurd (List.getElem?_eq_some_iff.mp he).1 hp

theorem stands_next (hlists : Lists ok lists merged) (h : Stands it ok lists merged m p)
    (hp : p < merged.length) :
    ∃ m', next it m = some m' ∧ Stands it ok lists merged m' (p + 1) := by
  obtain ⟨i, w, e, hi, hw, -, hkey, -, hok, hc, hat⟩ := h.current_child hlists hp
  -- after the loop every child stands at its first entry from the current key on
  obtain ⟨turned, hturned, hat⟩ : ∃ turned,
      m.turnTo .forward (turnForward it w.key) i = some turned ∧
      ChildrenAt it ok lists (cut (below cmp e.1)) turned := by
    cases hdirection : m.direction with
    | forward =>
      rw [hdirection] at hat
      exact ⟨m.children, if_neg (not_not.mpr hdirection), hat⟩
    | reverse =>
      rw [hdirection] at hat
      obtain ⟨turned, hturned, hat⟩ := turn_children (cut (below cmp e.1)) (i := i)
        (f := turnForward it w.key) hat
        (fun j hj hji w' hw' => by
          rw [hkey]
          exact turnForward_behaves (hlists.ascending _ (List.getElem_mem hj)) hok
            (hc.other_ne j hj hji) hw')
        (fun _ => by rw [position, hc.current_upto, before, if_neg (Nat.succ_ne_zero _)]; rfl)
      exact ⟨turned, (if_pos (by rw [hdirection]; decide)).trans hturned, hat⟩
  obtain ⟨children, hchildren, hat⟩ := moveCurrent_children .next
    (cut (upto cmp e.1)) hc.lt hat hc.current_lt hc.current_upto.symm
    fun j hj hji => (hc.other j hj hji).symm
  refine ⟨{ children, current := findSmallest children, direction := .forward }, ?_, ?_⟩
  · rw [next, hi, hw]
    simp only [Option.bind_eq_bind, Option.bind_some, hturned, hchildren]
    rfl
  · have := stands_findSmallest hlists (down_upto e.1) hat
    rwa [hc.merged_upto] at this

theorem stands_prev (hlists : Lists ok lists merged) (h : Stands it ok lists merged m p)
    (hp : p < merged.length) :
    ∃ m', prev it m = some m' ∧
      Stands it ok lists merged m' (Cursor.move cmp merged .prev p) := by
  obtain ⟨i, w, e, hi, hw, -, hkey, -, hok, hc, hat⟩ := h.current_child hlists hp
  -- after the loop the others stand in front of the current key
  obtain ⟨turned, hturned, hat⟩ : ∃ turned,
      m.turnTo .reverse (turnReverse it w.key) i = some turned ∧
      ChildrenAt it ok lists (position e.1 .reverse) turned := by
    cases hdirection : m.direction with
    | reverse =>
      rw [hdirection] at hat
      exact ⟨m.children, if_neg (not_not.mpr hdirection), hat⟩
    | forward =>
      rw [hdirection] at hat
      obtain ⟨turned, hturned, hat⟩ := turn_children (position e.1 .reverse) (i := i)
        (f := turnReverse it w.key) hat
        (fun j hj hji w' hw' => by
          rw [hkey, position, hc.other j hj hji]
          exact turnReverse_behaves (hlists.ascending _ (List.getElem_mem hj)) hok hw')
        (fun _ => by
          rw [position, position, hc.current_upto, before, if_neg (Nat.succ_ne_zero _)]
          rfl)
      exact ⟨turned, (if_pos (by rw [hdirection]; decide)).trans hturned, hat⟩
  have hlt := hc.lt
  have hposition : position e.1 .reverse lists[i] = cut (below cmp e.1) lists[i] := by
    rw [position, hc.current_upto, before, if_neg (Nat.succ_ne_zero _)]
    rfl
  obtain ⟨children, hchildren, hat⟩ := moveCurrent_children .prev
    (fun xs => before xs.length (cut (below cmp e.1) xs)) hc.lt hat
    (by rw [hposition]; exact hc.current_lt) (by rw [hposition]; rfl)
    fun j hj hji => by rw [position, hc.other j hj hji]
  refine ⟨{ children, current := findLargest children, direction := .reverse }, ?_, ?_⟩
  · rw [prev, hi, hw]
    simp only [Option.bind_eq_bind, Option.bind_some, hturned, hchildren]
    rfl
  · have := stands_findLargest hlists (down_below e.1) hat
    rwa [hc.merged_below] at this

theorem stands_move {call : Move Bytes} (hlists : Lists ok lists merged)
    (h : Stands it ok lists merged m p) (hlegal : Legal ok merged p call) :
    ∃ m', (iterator it).move call m = some m' ∧
      Stands it ok lists merged m' (Cursor.move cmp merged call p) := by
  cases call with
  | seekToFirst =>
    refine stands_moveForward (P := fun _ => false) hlists (fun _ _ _ h => h) h
      (fun _ _ => trivial) fun xs _ _ => ?_
    exact (congrFun List.countP_false xs).symm
  | seekToLast => exact stands_seekToLast hlists h
  | seek target =>
    exact stands_moveForward hlists (down_below target) h (fun _ _ => hlegal)
      fun xs hxs _ => seek_eq_cut hxs target
  | next => exact stands_next hlists h hlegal
  | prev => exact stands_prev hlists h hlegal

end

/-! ## The sorted union -/

def sortedUnion (lists : List (List (Bytes × Bytes))) : List (Bytes × Bytes) :=
  lists.flatten.mergeSort fun a b => (cmp a.1 b.1).isLE

theorem ascending_sortedUnion {lists : List (List (Bytes × Bytes))}
    (hascending : ∀ xs ∈ lists, Ascending cmp xs)
    (hapart : lists.Pairwise fun xs ys => ∀ a ∈ xs, ∀ b ∈ ys, cmp a.1 b.1 ≠ .eq) :
    Ascending cmp (sortedUnion lists) := by
  have hne : lists.flatten.Pairwise fun a b => cmp a.1 b.1 ≠ .eq := by
    refine List.pairwise_flatten.mpr ⟨fun xs hxs => ?_, hapart⟩
    refine (hascending xs hxs).imp fun hlt => ?_
    rw [hlt]
    decide
  have hne' : (sortedUnion lists).Pairwise fun a b => cmp a.1 b.1 ≠ .eq := by
    refine ((List.mergeSort_perm _ _).pairwise_iff fun hab => ?_).mpr hne
    rwa [Ne, @OrientedCmp.eq_comm _ cmp]
  have hle := @List.pairwise_mergeSort _ (fun a b : Bytes × Bytes => (cmp a.1 b.1).isLE)
    (fun _ _ _ => TransCmp.isLE_trans) (fun a b => by
      rw [@OrientedCmp.eq_swap _ cmp _ b.1 a.1]
      cases cmp a.1 b.1 <;> rfl) lists.flatten
  have hlt {o : Ordering} (hle : o.isLE) (hne : o ≠ .eq) : o = .lt := by
    cases o <;> simp_all
  exact (hle.and hne').imp fun h => hlt h.1 h.2

theorem lists_sortedUnion {ok : Bytes → Prop} {lists : List (List (Bytes × Bytes))}
    (hascending : ∀ xs ∈ lists, Ascending cmp xs)
    (hapart : lists.Pairwise fun xs ys => ∀ a ∈ xs, ∀ b ∈ ys, cmp a.1 b.1 ≠ .eq)
    (hok : ∀ xs ∈ lists, ∀ e ∈ xs, ok e.1) : Lists ok lists (sortedUnion lists) := by
  refine ⟨hascending, ?_, hok, ascending_sortedUnion hascending hapart, ?_⟩
  · intro i j hi hj hij a ha b hb
    rcases Nat.lt_or_gt_of_ne hij with h | h
    · exact List.pairwise_iff_getElem.mp hapart i j hi hj h a ha b hb
    · rw [Ne, @OrientedCmp.eq_comm _ cmp]
      exact List.pairwise_iff_getElem.mp hapart j i hj hi h b hb a ha
  · intro e
    rw [sortedUnion, List.mem_mergeSort, List.mem_flatten]

/-- Over children that are cursors, the merging iterator is a cursor on their sorted union. -/
theorem behaves_new (it : Iterator σ) (children : List σ) (lists : List (List (Bytes × Bytes)))
    (hascending : ∀ xs ∈ lists, Ascending cmp xs)
    (hapart : lists.Pairwise fun xs ys => ∀ a ∈ xs, ∀ b ∈ ys, cmp a.1 b.1 ≠ .eq)
    (hkeys : ∀ xs ∈ lists, ∀ e ∈ xs, 8 ≤ e.1.length)
    (hchildren : List.Forall₂ (fun s xs => ∃ p, Behaves cmp (8 ≤ ·.length) xs it s p)
      children lists) :
    Behaves cmp (8 ≤ ·.length) (sortedUnion lists) (iterator it) (new it children)
      (sortedUnion lists).length := by
  have hlists := @lists_sortedUnion (8 ≤ ·.length) _ hascending hapart hkeys
  refine Behaves.of_simulation (R := Stands it (8 ≤ ·.length) lists (sortedUnion lists))
    (fun m p h => h.current_eq hlists) (fun m p call h hlegal => stands_move hlists h hlegal) ?_
  have hlen := hchildren.length_eq
  refine ⟨by rw [new, List.length_map, hlen], ?_, Nat.le_refl _⟩
  intro i hi hi'
  simp only [new, List.getElem_map]
  obtain ⟨p, hp⟩ := hchildren.get (hlen ▸ hi') hi'
  exact ⟨p, IteratorWrapper.InStep.behaves (IteratorWrapper.inStep_update _ _) hp⟩

/-- Two children with the versions of two user keys. -/
theorem behaves_new_two :
    Behaves cmp (8 ≤ ·.length)
      (sortedUnion [[((InternalKey.new [1] 2 .value).Key, [7]), ((InternalKey.new [2] 1 .value).Key, [])],
        [((InternalKey.new [1] 3 .deletion).Key, [])]])
      (iterator (ofList cmp))
      (new (ofList cmp)
        [([((InternalKey.new [1] 2 .value).Key, [7]), ((InternalKey.new [2] 1 .value).Key, [])], 0),
          ([((InternalKey.new [1] 3 .deletion).Key, [])], 1)])
      (sortedUnion [[((InternalKey.new [1] 2 .value).Key, [7]),
        ((InternalKey.new [2] 1 .value).Key, [])],
        [((InternalKey.new [1] 3 .deletion).Key, [])]]).length := by
  apply behaves_new
  · decide +kernel
  · decide +kernel
  · decide +kernel
  · exact .cons ⟨0, behaves_ofList _ _⟩ (.cons ⟨1, behaves_ofList _ _⟩ .nil)

end Merageitor
end Yubindb
