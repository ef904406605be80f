import Mathlib.Data.List.Basic

/-!
# Cutting a list into blocks of one size

`fullChunks` lists the complete blocks of a list from the front and
`lastChunk` is the incomplete rest, which is empty when the length of the list
is a multiple of the block size.
-/

namespace OSCourse.Library.Chunks

universe u

variable {Item : Type u}

/-- The complete blocks of `size` items, from the front. -/
def fullChunks (size : Nat) (items : List Item) : List (List Item) :=
  if 0 < size ∧ size ≤ items.length then
    items.take size :: fullChunks size (items.drop size)
  else
    []
termination_by items.length
decreasing_by
  simp only [List.length_drop]
  omega

/-- What is left behind the last complete block. -/
def lastChunk (size : Nat) (items : List Item) : List Item :=
  if 0 < size ∧ size ≤ items.length then
    lastChunk size (items.drop size)
  else
    items
termination_by items.length
decreasing_by
  simp only [List.length_drop]
  omega

section Laws

variable {size : Nat}

@[simp]
theorem fullChunks_of_lt {items : List Item} (small : items.length < size) :
    fullChunks size items = [] := by
  rw [fullChunks, if_neg (by omega)]

@[simp]
theorem lastChunk_of_lt {items : List Item} (small : items.length < size) :
    lastChunk size items = items := by
  rw [lastChunk, if_neg (by omega)]

/-- A complete block in front is cut off first. -/
theorem fullChunks_append
    {front : List Item} (complete : front.length = size)
    (positive : 0 < size) (rest : List Item) :
    fullChunks size (front ++ rest) = front :: fullChunks size rest := by
  rw [fullChunks, if_pos ⟨positive, by simp; omega⟩]
  subst complete
  simp

theorem lastChunk_append
    {front : List Item} (complete : front.length = size)
    (positive : 0 < size) (rest : List Item) :
    lastChunk size (front ++ rest) = lastChunk size rest := by
  rw [lastChunk, if_pos ⟨positive, by simp; omega⟩]
  subst complete
  simp

/-- Cutting loses nothing and keeps the order. -/
theorem flatten_fullChunks_append_lastChunk
    (size : Nat) (items : List Item) :
    (fullChunks size items).flatten ++ lastChunk size items = items := by
  fun_induction fullChunks size items with
  | case1 items complete ih =>
      rw [lastChunk, if_pos complete, List.flatten_cons, List.append_assoc,
        ih, List.take_append_drop]
  | case2 items incomplete =>
      rw [lastChunk, if_neg incomplete]
      rfl

/-- Cutting a list whose front was cut before only has to cut its rest. -/
theorem fullChunks_lastChunk_append
    (positive : 0 < size) (items more : List Item) :
    fullChunks size (items ++ more) =
      fullChunks size items ++
        fullChunks size (lastChunk size items ++ more) := by
  fun_induction fullChunks size items with
  | case1 items complete ih =>
      have front : (items.take size).length = size := by
        simp [complete.2]
      conv_lhs => rw [← List.take_append_drop size items, List.append_assoc]
      rw [fullChunks_append front positive, ih, List.cons_append,
        lastChunk.eq_1 size items, if_pos complete]
  | case2 items incomplete =>
      rw [lastChunk, if_neg incomplete]
      rfl

theorem lastChunk_lastChunk_append
    (positive : 0 < size) (items more : List Item) :
    lastChunk size (items ++ more) =
      lastChunk size (lastChunk size items ++ more) := by
  fun_induction lastChunk size items with
  | case1 items complete ih =>
      have front : (items.take size).length = size := by
        simp [complete.2]
      conv_lhs => rw [← List.take_append_drop size items, List.append_assoc]
      rw [lastChunk_append front positive, ih]
  | case2 items incomplete => rfl

end Laws

end OSCourse.Library.Chunks
