import Mathlib.Data.List.Infix
import OSCourse.Library.TransitionSystem

/-!
# Bounded first-in-first-out queues

A queue of at most `size` values, with what was put into it and taken out of it
so far.  What was taken out is a prefix of what was put in.
-/

namespace OSCourse.Library.Fifo

open OSCourse.Library.TransitionSystem

universe u

variable {α : Type u}

/-- A queue and its history, oldest first. -/
structure Queue (α : Type u) where
  waiting : List α
  enqueued : List α
  dequeued : List α

inductive Action (α : Type u) where
  | enqueue (value : α)
  | dequeue (value : α)

/-- The queue with room for `size` values. -/
def queueSystem (α : Type u) (size : Nat) : System (Queue α) (Action α) where
  start queue := queue = ⟨[], [], []⟩
  step queue action next :=
    match action with
    | .enqueue value => queue.waiting.length < size ∧
        next = ⟨queue.waiting ++ [value], queue.enqueued ++ [value],
          queue.dequeued⟩
    | .dequeue value => ∃ rest, queue.waiting = value :: rest ∧
        next = ⟨rest, queue.enqueued, queue.dequeued ++ [value]⟩

/-- The values in the queue are those put in and not yet taken out. -/
theorem enqueued_of_reachable {size : Nat} {queue : Queue α}
    (reached : (queueSystem α size).Reachable queue) :
    queue.enqueued = queue.dequeued ++ queue.waiting := by
  refine reached.invariant
    (fun queue => queue.enqueued = queue.dequeued ++ queue.waiting) ?_ ?_
  · rintro queue rfl
    rfl
  · intro queue action next _ holds taken
    cases action with
    | enqueue value =>
        rcases taken with ⟨_, rfl⟩
        simp only [holds, List.append_assoc]
    | dequeue value =>
        rcases taken with ⟨rest, waiting, rfl⟩
        simp only [holds, waiting, List.append_assoc, List.singleton_append]

theorem length_le_of_reachable {size : Nat} {queue : Queue α}
    (reached : (queueSystem α size).Reachable queue) :
    queue.waiting.length ≤ size := by
  refine reached.invariant (fun queue => queue.waiting.length ≤ size) ?_ ?_
  · rintro queue rfl
    exact Nat.zero_le _
  · intro queue action next _ holds taken
    cases action with
    | enqueue value =>
        rcases taken with ⟨room, rfl⟩
        rw [List.length_append, List.length_singleton]
        exact room
    | dequeue value =>
        rcases taken with ⟨rest, waiting, rfl⟩
        rw [waiting, List.length_cons] at holds
        exact Nat.le_of_succ_le holds

/-- What was taken out is a prefix of what was put in. -/
theorem dequeued_isPrefix {size : Nat} {queue : Queue α}
    (reached : (queueSystem α size).Reachable queue) :
    queue.dequeued <+: queue.enqueued :=
  ⟨queue.waiting, (enqueued_of_reachable reached).symm⟩

end OSCourse.Library.Fifo
