import OSCourse.Newsroom.FifoRefinement

/-!
# The two tests for an empty buffer

`isBufferEmpty` compares the two indices of the ring, `tryRemoveFromBuffer` asks
the read semaphore.  Between completed calls the semaphore counts the messages
that were inserted and not removed, while the indices only tell their number
modulo the size: they coincide in a buffer that holds no message and also in one
that is full.
-/

namespace OSCourse.Newsroom

open OSCourse.Library.Fifo
open OSCourse.Library.Ring
open OSCourse.Library.TransitionSystem

universe u

variable {Thread : Type} {Msg : Type u} [Fintype Thread] [DecidableEq Thread]
variable {size : Nat} {usage : Usage Thread Msg}

namespace Fields

theorem tryRemoveFromBuffer_eq_none_iff {bb : Fields Msg} :
    bb.tryRemoveFromBuffer.1 = none ↔ bb.readSemaphore = 0 := by
  unfold tryRemoveFromBuffer
  split
  case isTrue empty => simp only [empty]
  case isFalse nonempty => simp only [nonempty, reduceCtorEq]

/-- The indices coincide when the ring holds nothing or is full. -/
theorem WellFormed.isBufferEmpty_iff {bb : Fields Msg}
    (wellFormed : bb.WellFormed) :
    bb.isBufferEmpty = true ↔
      bb.readSemaphore = 0 ∨ bb.readSemaphore = bb.size := by
  have head := wellFormed.head
  have tail := wellFormed.tail
  have semaphores := wellFormed.semaphores
  have here : bb.head % bb.size = bb.head := Nat.mod_eq_of_lt head
  rw [isBufferEmpty, beq_iff_eq, tail]
  constructor
  · intro same
    by_contra neither
    rw [not_or] at neither
    have positive : 0 < bb.readSemaphore := Nat.pos_of_ne_zero neither.1
    have below : bb.readSemaphore < bb.size := by omega
    exact mod_ne_mod positive below (by rw [Nat.add_zero, here, ← same])
  · rintro (empty | full)
    · rw [empty, Nat.add_zero, here]
    · rw [full, Nat.add_mod_right, here]

end Fields

omit [DecidableEq Thread] in
/-- With nobody between a wait and a post, the buffer is the settled one. -/
theorem Represents.settled_eq {queue : Queue Msg}
    (represents : Represents size usage queue)
    (completed : usage.insideCount = 0) :
    usage.shared.settled () = usage.bb := by
  have nobody := usage.insideCount_eq
  have semaphores := (represents.balanced ()).semaphores
  have items : usage.shared.items () = 0 := by omega
  have stored : usage.shared.stored () = usage.bb.readSemaphore := by
    rw [Shared.stored, items]
    rfl
  have free : (usage.shared.bufs ()).size - usage.shared.stored () =
      (usage.shared.bufs ()).writeSemaphore := by
    omega
  rw [Shared.settled, free, stored]
  rfl

/-- Between completed calls the read semaphore counts the messages. -/
theorem readSemaphore_of_completed (positive : 0 < size)
    (reached : (bufferSystem Thread Msg size).Reachable usage)
    (completed : usage.insideCount = 0) :
    usage.bb.WellFormed ∧ usage.bb.size = size ∧
      usage.inserted.length =
        usage.removed.length + usage.bb.readSemaphore := by
  rcases represents_of_reachable positive reached with
    ⟨queue, specified, represents⟩
  have settled := represents.settled_eq completed
  have history := congrArg List.length (enqueued_of_reachable specified)
  rw [represents.enqueued, represents.dequeued, represents.waiting, settled,
    List.length_append, Fields.contents, length_window] at history
  refine ⟨?_, ?_, history⟩
  · exact settled ▸ (represents.balanced ()).wellFormed
  · exact settled ▸ represents.size

/-- The semaphore's test for an empty buffer is right at every fill level. -/
theorem tryRemoveFromBuffer_eq_none_iff_of_completed (positive : 0 < size)
    (reached : (bufferSystem Thread Msg size).Reachable usage)
    (completed : usage.insideCount = 0) :
    usage.bb.tryRemoveFromBuffer.1 = none ↔
      usage.inserted.length = usage.removed.length := by
  rcases readSemaphore_of_completed positive reached completed with
    ⟨-, -, counted⟩
  rw [Fields.tryRemoveFromBuffer_eq_none_iff]
  omega

/--
After completed calls, `isBufferEmpty` tells whether the buffer holds no
message, and agrees with `tryRemoveFromBuffer`, exactly if the buffer is not
full.
-/
theorem isBufferEmpty_correct_iff
    (positive : 0 < size)
    (reached : (bufferSystem Thread Msg size).Reachable usage)
    (completed : usage.insideCount = 0) :
    ((usage.bb.isBufferEmpty = true ↔
        usage.inserted.length = usage.removed.length) ∧
      (usage.bb.tryRemoveFromBuffer.1 = none ↔
        usage.bb.isBufferEmpty = true)) ↔
      usage.inserted.length < usage.removed.length + size := by
  rcases readSemaphore_of_completed positive reached completed with
    ⟨wellFormed, sizes, counted⟩
  have semaphores := wellFormed.semaphores
  rw [wellFormed.isBufferEmpty_iff, Fields.tryRemoveFromBuffer_eq_none_iff,
    sizes]
  omega

/-- One thread that fills a buffer of one cell. -/
def fillingRun : List (Move Unit Nat) :=
  [.request () (.insert () 7), .enter (), .post ()]

def filled : Usage Unit Nat :=
  (fillingRun.foldlM Usage.exec
    (freshUsage Unit (fun _ => 0) 1 4)).get (by decide +kernel)

theorem reachable_filled : (bufferSystem Unit Nat 1).Reachable filled :=
  System.Reachable.of_run (fun _ _ _ taken => taken) (.start ⟨_, _, rfl⟩)
    (Option.some_get _).symm

/-- A full buffer is reported as empty, while there is a message to remove. -/
theorem isBufferEmpty_filled :
    (bufferSystem Unit Nat 1).Reachable filled ∧
      filled.insideCount = 0 ∧
      filled.bb.isBufferEmpty = true ∧
      filled.inserted.length ≠ filled.removed.length ∧
      filled.bb.tryRemoveFromBuffer.1 = some 7 :=
  ⟨reachable_filled, by decide +kernel⟩

theorem isBufferEmpty_correct_iff_filled :
    filled.inserted.length = 1 ∧
      (((filled.bb.isBufferEmpty = true ↔
          filled.inserted.length = filled.removed.length) ∧
        (filled.bb.tryRemoveFromBuffer.1 = none ↔
          filled.bb.isBufferEmpty = true)) ↔
        filled.inserted.length < filled.removed.length + 1) :=
  ⟨by decide +kernel,
    isBufferEmpty_correct_iff Nat.one_pos reachable_filled
      (by decide +kernel)⟩

end OSCourse.Newsroom
