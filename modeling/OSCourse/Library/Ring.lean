import Mathlib.Data.List.Basic
import Mathlib.Logic.Function.Basic

/-!
# Circular arrays

The elements that stand in a circular array of `size` cells from an index on,
and what storing behind them and removing in front of them does to that list.
-/

namespace OSCourse.Library.Ring

universe u

variable {α : Type u}

/-- The `count` elements from index `head` on. -/
def window (cells : Nat → α) (size head count : Nat) : List α :=
  (List.range count).map fun k => cells ((head + k) % size)

@[simp]
theorem length_window (cells : Nat → α) (size head count : Nat) :
    (window cells size head count).length = count := by
  simp [window]

/-- Two indices less than a turn apart are different cells. -/
theorem mod_ne_mod {size head i j : Nat} (before : i < j) (near : j < size) :
    (head + i) % size ≠ (head + j) % size := by
  intro same
  have turn : (head + j - (head + i)) % size = 0 :=
    Nat.sub_mod_eq_zero_of_mod_eq same.symm
  rw [Nat.mod_eq_of_lt (by omega)] at turn
  omega

/-- Storing behind the window makes it longer. -/
theorem window_push (cells : Nat → α) {size head count : Nat} (value : α)
    (room : count < size) :
    window (Function.update cells ((head + count) % size) value) size head
        (count + 1) =
      window cells size head count ++ [value] := by
  unfold window
  rw [List.range_succ, List.map_append]
  congr 1
  · apply List.map_congr_left
    intro k member
    rw [List.mem_range] at member
    exact Function.update_of_ne (mod_ne_mod member room) _ _
  · simp

/-- The window starts with the cell at its head. -/
theorem window_pop (cells : Nat → α) (size head count : Nat) :
    window cells size head (count + 1) =
      cells (head % size) ::
        window cells size ((head + 1) % size) count := by
  unfold window
  rw [List.range_succ_eq_map, List.map_cons, List.map_map]
  congr 1
  apply List.map_congr_left
  intro k _
  simp only [Function.comp_apply, Nat.mod_add_mod]
  congr 2
  omega

end OSCourse.Library.Ring
