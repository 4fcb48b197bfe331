import Mathlib.Data.List.Induction
import Mathlib.Logic.Relation
import Mathlib.Order.WellFounded

/-!
# Runs of a partial step function

A machine is a function `step` from labels and states to the next state, where the label is possible.
`Steps step P` relates the states of a run all of whose labels meet `P` in the states in which they
are taken.
-/

namespace Yubindb

variable {L S : Type*} {step : L → S → Option S} {P : S → L → Prop} {s t u : S}

/-- One step with a label that meets `P`. -/
def Next (step : L → S → Option S) (P : S → L → Prop) (s t : S) : Prop :=
  ∃ l, P s l ∧ step l s = some t

/-- A run whose labels meet `P`. -/
def Steps (step : L → S → Option S) (P : S → L → Prop) : S → S → Prop :=
  Relation.ReflTransGen (Next step P)

/-- The state behind a list of labels. -/
def runAll (step : L → S → Option S) : List L → S → Option S
  | [], s => some s
  | l :: ls, s => (step l s).bind (runAll step ls)

theorem runAll_append (ls ls' : List L) (s : S) :
    runAll step (ls ++ ls') s = (runAll step ls s).bind (runAll step ls') := by
  induction ls generalizing s with
  | nil => rfl
  | cons l ls ih =>
    rw [List.cons_append, runAll, runAll, Option.bind_assoc]
    exact congrArg _ (funext ih)

/-- What every step preserves holds behind the labels. -/
theorem runAll_invariant {Inv : S → Prop} (hstep : ∀ l s t, step l s = some t → Inv s → Inv t)
    {ls : List L} (h : runAll step ls s = some t) (hs : Inv s) : Inv t := by
  induction ls generalizing s with
  | nil =>
    cases h
    exact hs
  | cons l ls ih =>
    obtain ⟨s', hnext, h⟩ := Option.bind_eq_some_iff.mp h
    exact ih h (hstep l s s' hnext hs)

/-- A machine whose steps lower a rank can be run until no label is possible. -/
theorem exists_runAll_stuck {α : Type*} [Preorder α] [WellFoundedLT α] (rank : S → α)
    (hstep : ∀ l s t, step l s = some t → rank t < rank s) (s : S) :
    ∃ ls t, runAll step ls s = some t ∧ ∀ l, step l t = none := by
  induction hrank : rank s using WellFoundedLT.induction generalizing s with
  | ind r ih =>
    subst hrank
    rcases forall_or_exists_not fun l => step l s = none with hstuck | ⟨l, hl⟩
    · exact ⟨[], s, rfl, hstuck⟩
    · obtain ⟨t, ht⟩ := Option.ne_none_iff_exists'.mp hl
      obtain ⟨ls, u, hrun, hu⟩ := ih _ (hstep l s t ht) t rfl
      refine ⟨l :: ls, u, ?_, hu⟩
      rw [runAll, ht]
      exact hrun

/-- Every step of the run over the labels, up to where it stops, meets `R`. -/
def EachStep (step : L → S → Option S) (R : S → L → S → Prop) : List L → S → Prop
  | [], _ => True
  | l :: ls, s => ∀ t, step l s = some t → R s l t ∧ EachStep step R ls t

theorem eachStep_congr {R R' : S → L → S → Prop}
    (h : ∀ s l t, step l s = some t → (R s l t ↔ R' s l t)) (ls : List L) (s : S) :
    EachStep step R ls s ↔ EachStep step R' ls s := by
  induction ls generalizing s with
  | nil => exact Iff.rfl
  | cons l ls ih => exact forall_congr' fun t => imp_congr_right fun ht => and_congr (h s l t ht) (ih t)

/-- The step behind a run over a front of the labels. -/
theorem EachStep.of_runAll {R : S → L → S → Prop} {ls : List L} {l : L}
    (h : EachStep step R (ls ++ [l]) s) (hrun : runAll step ls s = some t) (hstep : step l t = some u) :
    R t l u := by
  induction ls generalizing s with
  | nil =>
    cases hrun
    exact (h u hstep).1
  | cons k ls ih =>
    obtain ⟨s', hs', hrun⟩ := Option.bind_eq_some_iff.mp hrun
    exact ih (h s' hs').2 hrun

/-- What each step gives of the next one's start carries a property of the steps along the run. -/
theorem EachStep.of_invariant {R R' : S → L → S → Prop} {Inv : S → Prop} {ls : List L}
    (hstep : ∀ s, ∀ l ∈ ls, ∀ t, step l s = some t → Inv s → R s l t → R' s l t ∧ Inv t)
    (h : EachStep step R ls s) (hs : Inv s) : EachStep step R' ls s := by
  induction ls generalizing s with
  | nil => trivial
  | cons l ls ih =>
    intro t ht
    obtain ⟨hR, hrest⟩ := h t ht
    obtain ⟨hR', hinv⟩ := hstep s l List.mem_cons_self t ht hs hR
    exact ⟨hR', ih (fun s l hl => hstep s l (List.mem_cons_of_mem _ hl)) hrest hinv⟩

namespace Steps

theorem refl (s : S) : Steps step P s s := Relation.ReflTransGen.refl

theorem head {l : L} (hl : P s l) (hstep : step l s = some t) (h : Steps step P t u) :
    Steps step P s u := Relation.ReflTransGen.head ⟨l, hl, hstep⟩ h

theorem imp {Q : S → L → Prop} (himp : ∀ s l, P s l → Q s l) (h : Steps step P s t) :
    Steps step Q s t := by
  refine Relation.ReflTransGen.mono ?_ _ _ h
  rintro s t ⟨l, hl, hstep⟩
  exact ⟨l, himp s l hl, hstep⟩

theorem of_runAll {ls : List L} (hls : ∀ l ∈ ls, ∀ s, P s l) (h : runAll step ls s = some t) :
    Steps step P s t := by
  induction ls generalizing s with
  | nil =>
    cases h
    exact .refl _
  | cons l ls ih =>
    obtain ⟨s', hstep, h⟩ := Option.bind_eq_some_iff.mp h
    obtain ⟨hl, hls⟩ := List.forall_mem_cons.mp hls
    exact .head (hl s) hstep (ih hls h)

/-- What every step preserves holds at the end of a run. -/
theorem invariant {Inv : S → Prop} (hstep : ∀ s l t, P s l → step l s = some t → Inv s → Inv t)
    (h : Steps step P s t) (hs : Inv s) : Inv t := by
  induction h with
  | refl => exact hs
  | tail _ hnext ih =>
    obtain ⟨l, hl, heq⟩ := hnext
    exact hstep _ l _ hl heq ih

/-- A relation that every step extends holds between the ends of a run. -/
theorem relation {Inv : S → Prop} {R : S → S → Prop} (hrefl : ∀ s, Inv s → R s s)
    (hinv : ∀ s l t, P s l → step l s = some t → Inv s → Inv t)
    (hstep : ∀ r s l t, P s l → step l s = some t → Inv s → R r s → R r t)
    (h : Steps step P s t) (hs : Inv s) : R s t := by
  have hboth : Inv t ∧ R s t := by
    induction h with
    | refl => exact ⟨hs, hrefl s hs⟩
    | tail _ hnext ih =>
      obtain ⟨l, hl, heq⟩ := hnext
      exact ⟨hinv _ l _ hl heq ih.1, hstep _ _ l _ hl heq ih.1 ih.2⟩
  exact hboth.2

end Steps

/-- Where one more label keeps a property of the labels so far exactly under a condition, the
property holds all along a run exactly when every label meets the condition. -/
theorem forall_isPrefix_iff {Q : List L → Prop} {C : List L → L → Prop} (hnil : Q [])
    (hstep : ∀ ls l, Q ls → (Q (ls ++ [l]) ↔ C ls l)) (ls : List L) :
    (∀ pre, pre <+: ls → Q pre) ↔ ∀ pre l, pre ++ [l] <+: ls → C pre l := by
  constructor
  · intro h pre l hpre
    exact (hstep pre l (h pre ((List.prefix_append pre [l]).trans hpre))).mp (h _ hpre)
  · intro h pre hpre
    induction pre using List.reverseRecOn with
    | nil => exact hnil
    | append_singleton pre l ih =>
      exact (hstep pre l (ih ((List.prefix_append pre [l]).trans hpre))).mpr (h pre l hpre)

end Yubindb
