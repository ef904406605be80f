import OSCourse.Library.Fifo
import OSCourse.Newsroom.BufferSteps

/-!
# The bounded buffer refines a queue

Any number of threads insert and remove messages at one buffer, in any
interleaving of their waits, critical sections and posts.  The buffer acts as a
bounded first-in-first-out queue in the order of the critical sections.
-/

namespace OSCourse.Newsroom

open OSCourse.Library.Fifo
open OSCourse.Library.Ring
open OSCourse.Library.TransitionSystem

universe u

/-- A buffer in use, with the messages inserted and removed so far in the order
of the critical sections. -/
structure Usage (Thread : Type) (Msg : Type u) where
  shared : Shared Thread Unit Msg
  inserted : List Msg
  removed : List Msg

/-- The steps of the threads; `refuse` is a `sem_trywait` that fails. -/
inductive Move (Thread : Type) (Msg : Type u) where
  | request (t : Thread) (request : Request Unit Msg)
  | refuse (t : Thread)
  | enter (t : Thread)
  | post (t : Thread)

namespace Usage

variable {Thread : Type} {Msg : Type u} [DecidableEq Thread]

/-- The buffer. -/
def bb (usage : Usage Thread Msg) : Fields Msg := usage.shared.bufs ()

/-- A thread is between its wait and its post. -/
def inside (usage : Usage Thread Msg) (t : Thread) : Bool :=
  match usage.shared.stage t with
  | .outside => false
  | _ => true

/-- The critical section of a thread that is past its wait. -/
def enter (usage : Usage Thread Msg) (t : Thread) :
    Option (Usage Thread Msg) :=
  match usage.shared.stage t with
  | .storing place message =>
      some
        { usage with
          shared := usage.shared.store t place message
          inserted := usage.inserted ++ [message] }
  | .taking place =>
      some
        { usage with
          shared := (usage.shared.take t place).2
          removed := usage.removed ++ [(usage.shared.take t place).1] }
  | _ => none

/-- One step of one thread. -/
def exec (usage : Usage Thread Msg) :
    Move Thread Msg → Option (Usage Thread Msg)
  | .request t request =>
      if usage.inside t then
        none
      else
        (usage.shared.wait t request).map fun shared =>
          { usage with shared := shared }
  | .refuse t =>
      if usage.inside t = false ∧ usage.bb.readSemaphore = 0 then
        some usage
      else
        none
  | .enter t => usage.enter t
  | .post t =>
      (usage.shared.post t).map fun shared => { usage with shared := shared }

end Usage

/-- A new buffer of `size` cells, on any memory, that no thread uses yet. -/
def freshUsage {Msg : Type u} (Thread : Type) (memory : Nat → Msg)
    (size : Nat) (id : Int) : Usage Thread Msg where
  shared := ⟨fun _ => .initBuffer memory size id, fun _ => .outside⟩
  inserted := []
  removed := []

/-- The interleavings of the threads at one buffer. -/
def bufferSystem (Thread : Type) (Msg : Type u) [DecidableEq Thread]
    (size : Nat) : System (Usage Thread Msg) (Move Thread Msg) where
  start usage := ∃ memory id, usage = freshUsage Thread memory size id
  step usage move next := usage.exec move = some next

/-! ## The law -/

variable {Thread : Type} {Msg : Type u} [Fintype Thread] [DecidableEq Thread]

/-- The number of threads between their wait and their post. -/
def Usage.insideCount (usage : Usage Thread Msg) : Nat :=
  (Finset.univ.filter fun t => usage.inside t = true).card

/-- The number of messages that were inserted and not removed. -/
def Usage.held (usage : Usage Thread Msg) : Nat :=
  usage.inserted.length - usage.removed.length

/-- The cells that hold messages, from the head on. -/
def Usage.cells (usage : Usage Thread Msg) : List Msg :=
  window usage.bb.buffer usage.bb.size usage.bb.head usage.held

/-- What makes a buffer of `size` cells a first-in-first-out queue. -/
structure FifoLaw (size : Nat) (usage : Usage Thread Msg) : Prop where
  bounded : usage.inserted.length ≤ usage.removed.length + size
  ordered : usage.removed <+: usage.inserted
  stored : usage.inserted = usage.removed ++ usage.cells
  refines : (queueSystem Msg size).Reachable
    ⟨usage.cells, usage.inserted, usage.removed⟩
  noOverwrite : ∀ t message,
    usage.shared.stage t = .storing () message →
      ∀ k < usage.held, (usage.bb.head + k) % usage.bb.size ≠ usage.bb.tail
  noEmptyRead : ∀ t, usage.shared.stage t = .taking () →
    usage.inserted[usage.removed.length]? =
      some (usage.bb.buffer usage.bb.head)
  semaphores : usage.bb.readSemaphore + usage.bb.writeSemaphore +
    usage.insideCount = size

/-! ## The simulation -/

/-- The queue that a buffer stands for. -/
structure Represents (size : Nat) (usage : Usage Thread Msg)
    (queue : Queue Msg) : Prop where
  balanced : ∀ place, usage.shared.Balanced place
  size : (usage.shared.settled ()).size = size
  waiting : queue.waiting = (usage.shared.settled ()).contents
  enqueued : queue.enqueued = usage.inserted
  dequeued : queue.dequeued = usage.removed

omit [DecidableEq Thread] in
theorem represents_freshUsage (memory : Nat → Msg) {size : Nat} (id : Int)
    (positive : 0 < size) :
    Represents size (freshUsage Thread memory size id) ⟨[], [], []⟩ := by
  have items : (freshUsage Thread memory size id).shared.items () = 0 :=
    Finset.sum_const_zero
  have rooms : (freshUsage Thread memory size id).shared.rooms () = 0 :=
    Finset.sum_const_zero
  have stored : (freshUsage Thread memory size id).shared.stored () = 0 := by
    rw [Shared.stored, items]
    rfl
  refine ⟨fun place => ⟨positive, ?_, ?_⟩, rfl, ?_, rfl, rfl⟩
  · rw [stored]
    exact (Nat.mod_eq_of_lt positive).symm
  · rw [stored, rooms]
    exact Nat.zero_add _
  · rw [eq_comm, Fields.contents_eq_nil_iff]
    exact stored

variable {size : Nat} {usage next : Usage Thread Msg} {queue : Queue Msg}
variable {t : Thread} {message : Msg}

omit [DecidableEq Thread] in
/-- A step that is not seen from outside. -/
theorem Represents.unseen {shared : Shared Thread Unit Msg}
    (represents : Represents size usage queue)
    (balanced : ∀ place, shared.Balanced place)
    (settled : ∀ place, shared.settled place = usage.shared.settled place) :
    Represents size { usage with shared := shared } queue := by
  refine ⟨balanced, ?_, ?_, represents.enqueued, represents.dequeued⟩
  · rw [settled, represents.size]
  · rw [settled, represents.waiting]

theorem Represents.store (represents : Represents size usage queue)
    (storing : usage.shared.stage t = .storing () message) :
    queue.waiting.length < size ∧
      Represents size
        { usage with
          shared := usage.shared.store t () message
          inserted := usage.inserted ++ [message] }
        ⟨queue.waiting ++ [message], queue.enqueued ++ [message],
          queue.dequeued⟩ := by
  rcases Shared.store_balanced represents.balanced storing with
    ⟨balanced, inserted, -⟩
  have wellFormed := (represents.balanced ()).wellFormed
  rcases wellFormed.insertToBuffer inserted with ⟨-, contents, -⟩
  have room := Shared.stored_lt_size (represents.balanced ()) storing
  have sizes := represents.size
  refine ⟨?_, balanced, ?_, ?_, ?_, represents.dequeued⟩
  · rw [represents.waiting, Fields.contents, length_window, ← sizes]
    exact room
  · rw [← sizes]
    simp only [Shared.settled, Shared.store, Shared.bufs_put, Fields.store]
  · simp only [contents, represents.waiting]
  · simp only [represents.enqueued]

theorem Represents.take (represents : Represents size usage queue)
    (taking : usage.shared.stage t = .taking ()) :
    ∃ rest, queue.waiting = (usage.shared.take t ()).1 :: rest ∧
      Represents size
        { usage with
          shared := (usage.shared.take t ()).2
          removed := usage.removed ++ [(usage.shared.take t ()).1] }
        ⟨rest, queue.enqueued,
          queue.dequeued ++ [(usage.shared.take t ()).1]⟩ := by
  rcases Shared.take_balanced represents.balanced taking with
    ⟨balanced, removed, -⟩
  have wellFormed := (represents.balanced ()).wellFormed
  have contents := (wellFormed.removeFromBuffer removed).2
  refine ⟨_, represents.waiting.trans contents, balanced, ?_, rfl,
    represents.enqueued, ?_⟩
  · rw [← represents.size]
    simp only [Shared.settled, Shared.take, Shared.bufs_put, Fields.take]
  · simp only [represents.dequeued]

/-- Each step of the buffer is one of the queue, or none. -/
theorem Represents.step {move : Move Thread Msg}
    (represents : Represents size usage queue)
    (taken : usage.exec move = some next) :
    Represents size next queue ∨
      ∃ action after, (queueSystem Msg size).step queue action after ∧
        Represents size next after := by
  cases move with
  | request t request =>
      simp only [Usage.exec] at taken
      split at taken
      · cases taken
      · rename_i outside
        rcases Option.map_eq_some_iff.mp taken with ⟨shared, waited, rfl⟩
        have stage : usage.shared.stage t = .outside := by
          unfold Usage.inside at outside
          split at outside
          · assumption
          · exact absurd rfl outside
        rcases Shared.wait_balanced stage represents.balanced waited with
          ⟨balanced, settled⟩
        exact .inl (represents.unseen balanced settled)
  | refuse t =>
      simp only [Usage.exec] at taken
      split at taken
      · cases taken
        exact .inl represents
      · cases taken
  | enter t =>
      simp only [Usage.exec, Usage.enter] at taken
      split at taken
      · rename_i message storing
        cases taken
        have stored := represents.store storing
        exact .inr ⟨.enqueue message, _, ⟨stored.1, rfl⟩, stored.2⟩
      · rename_i taking
        cases taken
        rcases represents.take taking with ⟨rest, waiting, kept⟩
        exact .inr ⟨.dequeue _, _, ⟨rest, waiting, rfl⟩, kept⟩
      · cases taken
  | post t =>
      rcases Option.map_eq_some_iff.mp taken with ⟨shared, posted, rfl⟩
      rcases Shared.post_balanced represents.balanced posted with
        ⟨balanced, settled⟩
      exact .inl (represents.unseen balanced settled)

/-- Every state of the buffer stands for a state of the queue. -/
theorem represents_of_reachable (positive : 0 < size)
    (reached : (bufferSystem Thread Msg size).Reachable usage) :
    ∃ queue, (queueSystem Msg size).Reachable queue ∧
      Represents size usage queue := by
  refine reached.simulated (Represents size) ?_ ?_
  · rintro usage ⟨memory, id, rfl⟩
    exact ⟨_, rfl, represents_freshUsage memory id positive⟩
  · intro usage move next queue represents taken
    exact represents.step taken

/-! ## The law holds -/

omit [DecidableEq Thread] in
/-- A thread between its wait and its post accounts for one cell. -/
theorem Usage.insideCount_eq (usage : Usage Thread Msg) :
    usage.insideCount = usage.shared.items () + usage.shared.rooms () := by
  rw [Usage.insideCount, Finset.card_filter, Shared.items, Shared.rooms,
    ← Finset.sum_add_distrib]
  refine Finset.sum_congr rfl fun t _ => ?_
  unfold Usage.inside
  cases usage.shared.stage t <;> rfl

omit [DecidableEq Thread] in
theorem Represents.held (represents : Represents size usage queue)
    (history : queue.enqueued = queue.dequeued ++ queue.waiting) :
    usage.held = usage.shared.stored () := by
  have lengths := congrArg List.length history
  rw [represents.enqueued, represents.dequeued, represents.waiting,
    List.length_append, Fields.contents, length_window] at lengths
  rw [Usage.held, lengths]
  exact Nat.add_sub_cancel_left ..

omit [DecidableEq Thread] in
theorem Represents.cells (represents : Represents size usage queue)
    (history : queue.enqueued = queue.dequeued ++ queue.waiting) :
    usage.cells = queue.waiting := by
  rw [represents.waiting, Usage.cells, represents.held history]
  rfl

/--
In every interleaving of any number of threads, a buffer of at least one cell is
a first-in-first-out queue.
-/
theorem boundedBuffer_refines_queue (positive : 0 < size)
    (reached : (bufferSystem Thread Msg size).Reachable usage) :
    FifoLaw size usage := by
  rcases represents_of_reachable positive reached with
    ⟨queue, specified, represents⟩
  have history := enqueued_of_reachable specified
  have bounded := length_le_of_reachable specified
  have ordered := dequeued_isPrefix specified
  have held := represents.held history
  have cells := represents.cells history
  have balanced := represents.balanced ()
  have sizes : usage.bb.size = size := represents.size
  have stored : usage.inserted = usage.removed ++ usage.cells := by
    rw [cells, ← represents.enqueued, ← represents.dequeued, history]
  constructor
  case bounded =>
    rw [stored, List.length_append, cells]
    omega
  case ordered =>
    rwa [represents.enqueued, represents.dequeued] at ordered
  case stored => exact stored
  case refines =>
    rw [cells, ← represents.enqueued, ← represents.dequeued]
    exact specified
  case noOverwrite =>
    intro t message storing k inside
    rw [show usage.bb.tail = _ from balanced.tail]
    rw [held] at inside
    exact mod_ne_mod inside (Shared.stored_lt_size balanced storing)
  case noEmptyRead =>
    intro t taking
    rcases represents.take taking with ⟨rest, waiting, -⟩
    rw [stored, cells, waiting, List.getElem?_append_right le_rfl, Nat.sub_self]
    rfl
  case semaphores =>
    have semaphores := balanced.semaphores
    rw [usage.insideCount_eq]
    simp only [Shared.stored] at semaphores
    simp only [Usage.bb] at sizes ⊢
    omega

/-- Three threads at a buffer of one cell: the second takes the message of the
first, and the third gets the cell. -/
def handoverRun : List (Move (Fin 3) Nat) :=
  [.refuse 1, .request 0 (.insert () 7), .enter 0, .refuse 1, .post 0,
    .request 1 (.remove ()), .enter 1, .post 1, .request 2 (.insert () 8)]

def handover : Usage (Fin 3) Nat :=
  (handoverRun.foldlM Usage.exec
    (freshUsage (Fin 3) (fun _ => 0) 1 4)).get (by decide +kernel)

theorem boundedBuffer_refines_queue_handover :
    handover.removed = [7] ∧ FifoLaw 1 handover :=
  ⟨by decide +kernel,
    boundedBuffer_refines_queue (by decide)
      (System.Reachable.of_run (fun _ _ _ taken => taken)
        (.start ⟨_, _, rfl⟩) (Option.some_get _).symm)⟩

end OSCourse.Newsroom
