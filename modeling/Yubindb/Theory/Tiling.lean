import Mathlib.Data.List.Basic

/-!
# Tilings of a string

Pieces of a string, each with the position at which it begins: they tile a range when the first begins
where the range does, each other one where the one before it ends, and the last ends where the range
does.
-/

namespace Tiling

variable {α : Type*} {start mid stop : ℕ} {piece : ℕ × List α} {pieces pieces' : List (ℕ × List α)}

/-- The pieces tile the positions from `start` up to `stop`. -/
inductive Tiles : ℕ → List (ℕ × List α) → ℕ → Prop
  | nil (start : ℕ) : Tiles start [] start
  | cons {start stop : ℕ} (data : List α) {pieces : List (ℕ × List α)}
    (h : Tiles (start + data.length) pieces stop) : Tiles start ((start, data) :: pieces) stop

namespace Tiles

theorem single (start : ℕ) (data : List α) : Tiles start [(start, data)] (start + data.length) :=
  .cons data (.nil _)

theorem append (h : Tiles start pieces mid) (h' : Tiles mid pieces' stop) :
    Tiles start (pieces ++ pieces') stop := by
  induction h with
  | nil => exact h'
  | cons data _ ih => exact .cons data (ih h')

theorem stop_eq (h : Tiles start pieces stop) :
    stop = start + (pieces.flatMap (·.2)).length := by
  induction h with
  | nil => rfl
  | cons data _ ih =>
    rw [ih, List.flatMap_cons, List.length_append, Nat.add_assoc]

theorem start_le (h : Tiles start pieces stop) (hpiece : piece ∈ pieces) : start ≤ piece.1 := by
  induction h with
  | nil => cases hpiece
  | cons data _ ih =>
    rcases List.mem_cons.mp hpiece with rfl | hpiece
    · exact Nat.le_refl _
    · exact Nat.le_trans (Nat.le_add_right _ _) (ih hpiece)

theorem le_stop (h : Tiles start pieces stop) (hpiece : piece ∈ pieces) :
    piece.1 + piece.2.length ≤ stop := by
  induction h with
  | nil => cases hpiece
  | cons data h ih =>
    rcases List.mem_cons.mp hpiece with rfl | hpiece
    · rw [h.stop_eq]
      exact Nat.le_add_right _ _
    · exact ih hpiece

/-- The pieces are in the order of their positions, and no two share one. -/
theorem pairwise (h : Tiles start pieces stop) :
    pieces.Pairwise fun p q => p.1 + p.2.length ≤ q.1 := by
  induction h with
  | nil => exact .nil
  | cons data h ih => exact .cons (fun q hq => h.start_le hq) ih

/-- In the string that the pieces make up, each one is found at its position. -/
theorem slice (h : Tiles start pieces stop) {front : List α} (hfront : front.length = start)
    (rest : List α) (hpiece : piece ∈ pieces) :
    ((front ++ pieces.flatMap (·.2) ++ rest).drop piece.1).take piece.2.length = piece.2 := by
  induction h generalizing front with
  | nil => cases hpiece
  | cons data h ih =>
    rw [List.flatMap_cons]
    rcases List.mem_cons.mp hpiece with rfl | hpiece
    · rw [List.append_assoc, List.drop_left' hfront, List.append_assoc, List.take_left]
    · rw [← List.append_assoc front]
      exact ih (by rw [List.length_append, hfront]) hpiece

end Tiles
end Tiling
