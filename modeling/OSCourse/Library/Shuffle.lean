import Mathlib.Data.List.Basic

/-!
# Shuffles of two lists

A shuffle of two lists holds the items of both, those of each list in their
order.
-/

namespace OSCourse.Library.Shuffle

universe u

variable {Item : Type u}

/-- The third list is a shuffle of the first two. -/
inductive IsShuffle : List Item → List Item → List Item → Prop where
  | nil : IsShuffle [] [] []
  | left {item : Item} {first second merged : List Item}
      (rest : IsShuffle first second merged) :
      IsShuffle (item :: first) second (item :: merged)
  | right {item : Item} {first second merged : List Item}
      (rest : IsShuffle first second merged) :
      IsShuffle first (item :: second) (item :: merged)

namespace IsShuffle

variable {first second merged : List Item}

theorem swap (shuffle : IsShuffle first second merged) :
    IsShuffle second first merged := by
  induction shuffle with
  | nil => exact .nil
  | left _ induction => exact induction.right
  | right _ induction => exact induction.left

/-- A list is a shuffle of itself and nothing. -/
theorem alone (items : List Item) : IsShuffle items [] items := by
  induction items with
  | nil => exact .nil
  | cons item items induction => exact induction.left

/-- More items of the first list at the end. -/
theorem append_left (shuffle : IsShuffle first second merged)
    (more : List Item) :
    IsShuffle (first ++ more) second (merged ++ more) := by
  induction shuffle with
  | nil => exact alone more
  | left _ induction => exact induction.left
  | right _ induction => exact induction.right

/-- More items of the second list at the end. -/
theorem append_right (shuffle : IsShuffle first second merged)
    (more : List Item) :
    IsShuffle first (second ++ more) (merged ++ more) :=
  (shuffle.swap.append_left more).swap

end IsShuffle

end OSCourse.Library.Shuffle
