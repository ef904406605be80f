import Mathlib.Algebra.BigOperators.Fin
import Mathlib.Algebra.Order.BigOperators.Group.Finset
import OSCourse.Newsroom.BoundedBuffer

/-!
# The steps of the buffer operations

An operation of `ex3/BoundedBuffer.c` is three steps of its thread: the wait on
one semaphore, the access to the array under the mutex, and the post on the
other semaphore.  The steps of any number of threads on any number of buffers
interleave.  A message in the array is counted by the read semaphore or by a
thread that stands between its wait and its post; so is a free cell.
-/

namespace OSCourse.Newsroom

universe u

namespace Fields

variable {Msg : Type u}

/-- `sem_wait(&bb->writeSemaphore)`, unless it blocks. -/
def waitWrite (bb : Fields Msg) : Option (Fields Msg) :=
  if bb.writeSemaphore = 0 then
    none
  else
    some { bb with writeSemaphore := bb.writeSemaphore - 1 }

/-- `sem_wait(&bb->readSemaphore)`, unless it blocks; or `sem_trywait`, unless
it fails. -/
def waitRead (bb : Fields Msg) : Option (Fields Msg) :=
  if bb.readSemaphore = 0 then
    none
  else
    some { bb with readSemaphore := bb.readSemaphore - 1 }

/-- The critical section of `insertToBuffer`. -/
def store (bb : Fields Msg) (msg : Msg) : Fields Msg :=
  { bb with
    buffer := Function.update bb.buffer bb.tail msg
    tail := (bb.tail + 1) % bb.size }

/-- The critical section of `removeFromBuffer` and `tryRemoveFromBuffer`. -/
def take (bb : Fields Msg) : Msg × Fields Msg :=
  (bb.buffer bb.head, { bb with head := (bb.head + 1) % bb.size })

/-- `sem_post(&bb->readSemaphore)`. -/
def postRead (bb : Fields Msg) : Fields Msg :=
  { bb with readSemaphore := bb.readSemaphore + 1 }

/-- `sem_post(&bb->writeSemaphore)`. -/
def postWrite (bb : Fields Msg) : Fields Msg :=
  { bb with writeSemaphore := bb.writeSemaphore + 1 }

/-- The fields other than the semaphores. -/
def bare (bb : Fields Msg) : Fields Msg :=
  { bb with readSemaphore := 0, writeSemaphore := 0 }

/-- The three steps of an insertion make up `insertToBuffer`. -/
theorem insertToBuffer_eq_steps (bb : Fields Msg) (msg : Msg) :
    bb.insertToBuffer msg =
      bb.waitWrite.map fun bb => (bb.store msg).postRead := by
  unfold insertToBuffer waitWrite
  split <;> rfl

/-- The three steps of a removal make up `removeFromBuffer`. -/
theorem removeFromBuffer_eq_steps (bb : Fields Msg) :
    bb.removeFromBuffer =
      bb.waitRead.map fun bb => (bb.take.1, bb.take.2.postWrite) := by
  unfold removeFromBuffer waitRead
  split <;> rfl

end Fields

/-! ## Threads -/

/-- What a thread asks of a buffer. -/
inductive Request (Place : Type) (Msg : Type u) where
  | insert (place : Place) (message : Msg)
  | remove (place : Place)
deriving DecidableEq

/--
Where a thread stands: outside the buffers; with a free cell, before it stores;
before it announces the stored message; with a message to take, before it takes
it; with the message taken, before it frees the cell.
-/
inductive Stage (Place : Type) (Msg : Type u) where
  | outside
  | storing (place : Place) (message : Msg)
  | announcing (place : Place)
  | taking (place : Place)
  | freeing (place : Place) (message : Msg)
deriving DecidableEq

/-- Where a thread stands after the wait of its request. -/
def Request.stage {Place : Type} {Msg : Type u} :
    Request Place Msg → Stage Place Msg
  | .insert place message => .storing place message
  | .remove place => .taking place

/-- The buffers, and where each thread stands. -/
structure Shared (Thread Place : Type) (Msg : Type u) where
  bufs : Place → Fields Msg
  stage : Thread → Stage Place Msg

namespace Shared

variable {Thread Place : Type} {Msg : Type u}
variable [DecidableEq Thread] [DecidableEq Place]

/-- A step of thread `t` on one buffer. -/
def put (shared : Shared Thread Place Msg) (place : Place) (bb : Fields Msg)
    (t : Thread) (stage : Stage Place Msg) : Shared Thread Place Msg where
  bufs := Function.update shared.bufs place bb
  stage := Function.update shared.stage t stage

/-- The wait of a request, unless it blocks. -/
def wait (shared : Shared Thread Place Msg) (t : Thread) :
    Request Place Msg → Option (Shared Thread Place Msg)
  | .insert place message =>
      (shared.bufs place).waitWrite.map fun bb =>
        shared.put place bb t (.storing place message)
  | .remove place =>
      (shared.bufs place).waitRead.map fun bb =>
        shared.put place bb t (.taking place)

/-- The critical section of thread `t` that stores `message` in `place`. -/
def store (shared : Shared Thread Place Msg) (t : Thread) (place : Place)
    (message : Msg) : Shared Thread Place Msg :=
  shared.put place ((shared.bufs place).store message) t (.announcing place)

/-- The critical section of thread `t` that takes a message out of `place`. -/
def take (shared : Shared Thread Place Msg) (t : Thread) (place : Place) :
    Msg × Shared Thread Place Msg :=
  ((shared.bufs place).take.1,
    shared.put place (shared.bufs place).take.2 t
      (.freeing place (shared.bufs place).take.1))

/-- The post of thread `t`, if one is due. -/
def post (shared : Shared Thread Place Msg) (t : Thread) :
    Option (Shared Thread Place Msg) :=
  match shared.stage t with
  | .announcing place =>
      some (shared.put place (shared.bufs place).postRead t .outside)
  | .freeing place _ =>
      some (shared.put place (shared.bufs place).postWrite t .outside)
  | _ => none

end Shared

/-! ## What the threads account for -/

namespace Stage

variable {Place : Type} {Msg : Type u} [DecidableEq Place]

/-- The messages in the array of `place` that a thread accounts for. -/
def items (place : Place) : Stage Place Msg → Nat
  | .announcing other => if other = place then 1 else 0
  | .taking other => if other = place then 1 else 0
  | _ => 0

/-- The free cells of `place` that a thread accounts for. -/
def rooms (place : Place) : Stage Place Msg → Nat
  | .storing other _ => if other = place then 1 else 0
  | .freeing other _ => if other = place then 1 else 0
  | _ => 0

end Stage

/-- A sum when one of its terms changes. -/
theorem sum_change {ι : Type*} [Fintype ι] [DecidableEq ι]
    (before after : ι → Nat) (i : ι)
    (same : ∀ j, j ≠ i → after j = before j) :
    ∑ j, after j + before i = ∑ j, before j + after i := by
  have others : ∑ j ∈ Finset.univ.erase i, after j =
      ∑ j ∈ Finset.univ.erase i, before j :=
    Finset.sum_congr rfl fun j member => same j (Finset.ne_of_mem_erase member)
  have first := Finset.add_sum_erase Finset.univ after (Finset.mem_univ i)
  have second := Finset.add_sum_erase Finset.univ before (Finset.mem_univ i)
  omega

/-- A sum over threads when one of them changes. -/
theorem sum_update_add {Thread State : Type*} [Fintype Thread]
    [DecidableEq Thread] (weight : State → Nat) (state : Thread → State)
    (t : Thread) (new : State) :
    ∑ other, weight (Function.update state t new other) + weight (state t) =
      ∑ other, weight (state other) + weight new := by
  have changed := sum_change (fun other => weight (state other))
    (fun other => weight (Function.update state t new other)) t
    (fun other apart => by rw [Function.update_of_ne apart])
  rwa [Function.update_self] at changed

namespace Shared

variable {Thread Place : Type} {Msg : Type u}
variable [Fintype Thread] [DecidableEq Thread] [DecidableEq Place]

/-- The messages in the array of `place` that threads account for. -/
def items (shared : Shared Thread Place Msg) (place : Place) : Nat :=
  ∑ t, (shared.stage t).items place

/-- The free cells of `place` that threads account for. -/
def rooms (shared : Shared Thread Place Msg) (place : Place) : Nat :=
  ∑ t, (shared.stage t).rooms place

/-- The number of messages in the array. -/
def stored (shared : Shared Thread Place Msg) (place : Place) : Nat :=
  (shared.bufs place).readSemaphore + shared.items place

/-- The buffer as it would be if each operation took effect at once, in its
critical section. -/
def settled (shared : Shared Thread Place Msg) (place : Place) :
    Fields Msg :=
  { shared.bufs place with
    readSemaphore := shared.stored place
    writeSemaphore := (shared.bufs place).size - shared.stored place }

/-- The semaphores and the threads account for every cell of a buffer. -/
structure Balanced (shared : Shared Thread Place Msg) (place : Place) :
    Prop where
  head : (shared.bufs place).head < (shared.bufs place).size
  tail : (shared.bufs place).tail =
    ((shared.bufs place).head + shared.stored place) %
      (shared.bufs place).size
  semaphores : shared.stored place +
    ((shared.bufs place).writeSemaphore + shared.rooms place) =
      (shared.bufs place).size

/-! ## What one step changes -/

variable {shared : Shared Thread Place Msg} {t : Thread} {place : Place}
variable {bb : Fields Msg} {new : Stage Place Msg} {message : Msg}

theorem items_put (other : Place) :
    (shared.put place bb t new).items other + (shared.stage t).items other =
      shared.items other + new.items other :=
  sum_update_add (Stage.items other) shared.stage t new

theorem rooms_put (other : Place) :
    (shared.put place bb t new).rooms other + (shared.stage t).rooms other =
      shared.rooms other + new.rooms other :=
  sum_update_add (Stage.rooms other) shared.stage t new

omit [DecidableEq Thread] in
theorem items_stage_le (shared : Shared Thread Place Msg) (place : Place)
    (t : Thread) :
    (shared.stage t).items place ≤ shared.items place :=
  Finset.single_le_sum
    (f := fun other => (shared.stage other).items place)
    (fun _ _ => Nat.zero_le _) (Finset.mem_univ t)

omit [DecidableEq Thread] in
theorem rooms_stage_le (shared : Shared Thread Place Msg) (place : Place)
    (t : Thread) :
    (shared.stage t).rooms place ≤ shared.rooms place :=
  Finset.single_le_sum
    (f := fun other => (shared.stage other).rooms place)
    (fun _ _ => Nat.zero_le _) (Finset.mem_univ t)

/-- A thread that accounts for nothing at another buffer, before its step and
after it. -/
def Away (shared : Shared Thread Place Msg) (t : Thread) (place : Place)
    (new : Stage Place Msg) : Prop :=
  ∀ other, other ≠ place →
    (shared.stage t).items other = 0 ∧ (shared.stage t).rooms other = 0 ∧
      new.items other = 0 ∧ new.rooms other = 0

/-- A step on one buffer leaves the others as they are. -/
theorem put_elsewhere (away : shared.Away t place new) {other : Place}
    (apart : other ≠ place) :
    (shared.put place bb t new).bufs other = shared.bufs other ∧
      (shared.put place bb t new).items other = shared.items other ∧
        (shared.put place bb t new).rooms other = shared.rooms other := by
  rcases away other apart with ⟨oldItems, oldRooms, newItems, newRooms⟩
  have items : (shared.put place bb t new).items other + _ = _ :=
    items_put other
  have rooms : (shared.put place bb t new).rooms other + _ = _ :=
    rooms_put other
  refine ⟨Function.update_of_ne apart _ _, ?_, ?_⟩
  · omega
  · omega

omit [DecidableEq Thread] in
/-- Buffers with the same array and the same accounts are balanced alike. -/
theorem Balanced.congr {next : Shared Thread Place Msg}
    (balanced : shared.Balanced place)
    (bare : (next.bufs place).bare = (shared.bufs place).bare)
    (stored : next.stored place = shared.stored place)
    (write : (next.bufs place).writeSemaphore + next.rooms place =
      (shared.bufs place).writeSemaphore + shared.rooms place) :
    next.Balanced place ∧ next.settled place = shared.settled place := by
  rcases balanced with ⟨head, tail, semaphores⟩
  simp only [Fields.bare, Fields.mk.injEq] at bare
  rcases bare with ⟨buffer, size, heads, tails, id, isDone, -, -⟩
  refine ⟨⟨?_, ?_, ?_⟩, ?_⟩
  · rwa [heads, size]
  · rwa [heads, size, tails, stored]
  · rwa [size, stored, write]
  · simp only [settled, Fields.mk.injEq]
    exact ⟨buffer, size, heads, tails, id, isDone, stored, by rw [size, stored]⟩

/-- A step on one buffer, seen from another one. -/
theorem put_apart (away : shared.Away t place new) {other : Place}
    (balanced : shared.Balanced other) (apart : other ≠ place) :
    (shared.put place bb t new).Balanced other ∧
      (shared.put place bb t new).settled other = shared.settled other := by
  rcases put_elsewhere away apart with ⟨bufs, items, rooms⟩
  refine balanced.congr ?_ ?_ ?_
  · rw [bufs]
  · rw [stored, stored, bufs, items]
  · rw [bufs, rooms]

theorem balanced_put (away : shared.Away t place new)
    (balanced : ∀ other, shared.Balanced other)
    (here : (shared.put place bb t new).Balanced place) (other : Place) :
    (shared.put place bb t new).Balanced other := by
  by_cases same : other = place
  · rw [same]
    exact here
  · exact (put_apart away (balanced other) same).1

omit [Fintype Thread] in
@[simp]
theorem bufs_put : (shared.put place bb t new).bufs place = bb :=
  Function.update_self ..

omit [Fintype Thread] in
@[simp]
theorem stage_put : (shared.put place bb t new).stage t = new :=
  Function.update_self ..

/-- A step that only moves permits between a semaphore and its thread. -/
theorem put_accounts (away : shared.Away t place new)
    (balanced : ∀ other, shared.Balanced other)
    (bare : bb.bare = (shared.bufs place).bare)
    (read : bb.readSemaphore + new.items place =
      (shared.bufs place).readSemaphore + (shared.stage t).items place)
    (write : bb.writeSemaphore + new.rooms place =
      (shared.bufs place).writeSemaphore + (shared.stage t).rooms place) :
    (∀ other, (shared.put place bb t new).Balanced other) ∧
      ∀ other, (shared.put place bb t new).settled other =
        shared.settled other := by
  have items : (shared.put place bb t new).items place + _ = _ :=
    items_put place
  have rooms : (shared.put place bb t new).rooms place + _ = _ :=
    rooms_put place
  have stored : (shared.put place bb t new).stored place =
      shared.stored place := by
    simp only [Shared.stored, bufs_put]
    omega
  have here := (balanced place).congr (by rw [bufs_put, bare]) stored
    (by rw [bufs_put]; omega)
  refine ⟨balanced_put away balanced here.1, ?_⟩
  intro other
  by_cases same : other = place
  · rw [same]
    exact here.2
  · exact (put_apart away (balanced other) same).2

omit [Fintype Thread] in
theorem stage_wait {next : Shared Thread Place Msg}
    {request : Request Place Msg}
    (waited : shared.wait t request = some next) :
    next.stage = Function.update shared.stage t request.stage := by
  cases request with
  | insert place message =>
      rcases Option.map_eq_some_iff.mp waited with ⟨bb, permitted, rfl⟩
      rfl
  | remove place =>
      rcases Option.map_eq_some_iff.mp waited with ⟨bb, permitted, rfl⟩
      rfl

omit [Fintype Thread] in
theorem stage_post {next : Shared Thread Place Msg}
    (posted : shared.post t = some next) :
    next.stage = Function.update shared.stage t .outside := by
  unfold post at posted
  split at posted
  · cases posted
    rfl
  · cases posted
    rfl
  · cases posted

/-- A wait is not seen from outside. -/
theorem wait_balanced {next : Shared Thread Place Msg}
    {request : Request Place Msg} (outside : shared.stage t = .outside)
    (balanced : ∀ other, shared.Balanced other)
    (waited : shared.wait t request = some next) :
    (∀ other, next.Balanced other) ∧
      ∀ other, next.settled other = shared.settled other := by
  cases request with
  | insert place message =>
      rcases Option.map_eq_some_iff.mp waited with ⟨bb, permitted, rfl⟩
      unfold Fields.waitWrite at permitted
      split at permitted
      · cases permitted
      · cases permitted
        refine put_accounts ?_ balanced rfl ?_ ?_
        · intro other apart
          simp [outside, Stage.items, Stage.rooms, Ne.symm apart]
        · simp [outside, Stage.items]
        · simp only [outside, Stage.rooms, if_true]
          omega
  | remove place =>
      rcases Option.map_eq_some_iff.mp waited with ⟨bb, permitted, rfl⟩
      unfold Fields.waitRead at permitted
      split at permitted
      · cases permitted
      · cases permitted
        refine put_accounts ?_ balanced rfl ?_ ?_
        · intro other apart
          simp [outside, Stage.items, Stage.rooms, Ne.symm apart]
        · simp only [outside, Stage.items, if_true]
          omega
        · simp [outside, Stage.rooms]

/-- A post is not seen from outside. -/
theorem post_balanced {next : Shared Thread Place Msg}
    (balanced : ∀ other, shared.Balanced other)
    (posted : shared.post t = some next) :
    (∀ other, next.Balanced other) ∧
      ∀ other, next.settled other = shared.settled other := by
  unfold post at posted
  split at posted
  · rename_i place announcing
    cases posted
    refine put_accounts ?_ balanced rfl ?_ ?_
    · intro other apart
      simp [announcing, Stage.items, Stage.rooms, Ne.symm apart]
    · simp [announcing, Stage.items, Fields.postRead]
    · simp [announcing, Stage.rooms, Fields.postRead]
  · rename_i place message freeing
    cases posted
    refine put_accounts ?_ balanced rfl ?_ ?_
    · intro other apart
      simp [freeing, Stage.items, Stage.rooms, Ne.symm apart]
    · simp [freeing, Stage.items, Fields.postWrite]
    · simp [freeing, Stage.rooms, Fields.postWrite]
  · cases posted

omit [DecidableEq Thread] in
/-- A thread that is about to store has a cell to store in. -/
theorem stored_lt_size (balanced : shared.Balanced place)
    (storing : shared.stage t = .storing place message) :
    shared.stored place < (shared.bufs place).size := by
  have rooms := shared.rooms_stage_le place t
  have semaphores := balanced.semaphores
  simp only [storing, Stage.rooms, if_true] at rooms
  omega

omit [DecidableEq Thread] in
/-- A thread that is about to take has a message to take. -/
theorem stored_pos (taking : shared.stage t = .taking place) :
    0 < shared.stored place := by
  have items := shared.items_stage_le place t
  simp only [taking, Stage.items, if_true] at items
  unfold stored
  omega

omit [DecidableEq Thread] in
theorem Balanced.store {next : Shared Thread Place Msg}
    (balanced : shared.Balanced place)
    (room : shared.stored place < (shared.bufs place).size)
    (bufs : next.bufs place = (shared.bufs place).store message)
    (items : next.items place = shared.items place + 1)
    (rooms : next.rooms place + 1 = shared.rooms place) :
    next.Balanced place ∧
      (shared.settled place).insertToBuffer message =
        some (next.settled place) := by
  have semaphores := balanced.semaphores
  have stored : next.stored place = shared.stored place + 1 := by
    simp only [Shared.stored, bufs, Fields.store]
    omega
  refine ⟨⟨?_, ?_, ?_⟩, ?_⟩
  · rw [bufs]
    exact balanced.head
  · simp only [bufs, stored, Fields.store, balanced.tail, Nat.mod_add_mod,
      Nat.add_assoc]
  · simp only [bufs, stored, Fields.store]
    omega
  · have free : (shared.settled place).writeSemaphore ≠ 0 := by
      simp only [settled]
      omega
    rw [Fields.insertToBuffer, if_neg free]
    simp only [settled, bufs, stored, Fields.store, Nat.sub_sub]

omit [DecidableEq Thread] in
theorem Balanced.take {next : Shared Thread Place Msg}
    (balanced : shared.Balanced place)
    (bufs : next.bufs place = (shared.bufs place).take.2)
    (items : next.items place + 1 = shared.items place)
    (rooms : next.rooms place = shared.rooms place + 1) :
    next.Balanced place ∧ (shared.settled place).removeFromBuffer =
      some ((shared.bufs place).take.1, next.settled place) := by
  have semaphores := balanced.semaphores
  have stored : shared.stored place = next.stored place + 1 := by
    simp only [Shared.stored, bufs, Fields.take]
    omega
  refine ⟨⟨?_, ?_, ?_⟩, ?_⟩
  · rw [bufs]
    exact Nat.mod_lt _ (Nat.zero_lt_of_lt balanced.head)
  · simp only [bufs, Fields.take, balanced.tail, stored, Nat.mod_add_mod]
    congr 1
    omega
  · simp only [bufs, Fields.take]
    omega
  · have present : (shared.settled place).readSemaphore ≠ 0 := by
      simp only [settled]
      omega
    have freed : (shared.bufs place).size - shared.stored place + 1 =
        (shared.bufs place).size - next.stored place := by
      omega
    rw [Fields.removeFromBuffer, if_neg present]
    simp only [settled, bufs, Fields.removed, Fields.take, freed]
    simp only [stored, Nat.add_sub_cancel]

/-- Storing acts as `insertToBuffer`. -/
theorem store_balanced (balanced : ∀ other, shared.Balanced other)
    (storing : shared.stage t = .storing place message) :
    (∀ other, (shared.store t place message).Balanced other) ∧
      (shared.settled place).insertToBuffer message =
        some ((shared.store t place message).settled place) ∧
      ∀ other, other ≠ place →
        (shared.store t place message).settled other =
          shared.settled other := by
  have away : shared.Away t place (.announcing place) := by
    intro other apart
    simp [storing, Stage.items, Stage.rooms, Ne.symm apart]
  have items : (shared.store t place message).items place + _ = _ :=
    items_put place
  have rooms : (shared.store t place message).rooms place + _ = _ :=
    rooms_put place
  simp only [storing, Stage.items, Stage.rooms, if_true] at items rooms
  have here := (balanced place).store (stored_lt_size (balanced place) storing)
    bufs_put items rooms
  refine ⟨balanced_put away balanced here.1, here.2, ?_⟩
  exact fun other apart => (put_apart away (balanced other) apart).2

/-- Taking acts as `removeFromBuffer`. -/
theorem take_balanced (balanced : ∀ other, shared.Balanced other)
    (taking : shared.stage t = .taking place) :
    (∀ other, (shared.take t place).2.Balanced other) ∧
      (shared.settled place).removeFromBuffer =
        some ((shared.take t place).1, (shared.take t place).2.settled place) ∧
      ∀ other, other ≠ place →
        (shared.take t place).2.settled other = shared.settled other := by
  have away : shared.Away t place
      (.freeing place (shared.bufs place).take.1) := by
    intro other apart
    simp [taking, Stage.items, Stage.rooms, Ne.symm apart]
  have items : (shared.take t place).2.items place + _ = _ :=
    items_put place
  have rooms : (shared.take t place).2.rooms place + _ = _ :=
    rooms_put place
  simp only [taking, Stage.items, Stage.rooms, if_true] at items rooms
  have here := (balanced place).take bufs_put items rooms
  refine ⟨balanced_put away balanced here.1, here.2, ?_⟩
  exact fun other apart => (put_apart away (balanced other) apart).2

omit [DecidableEq Thread] in
theorem Balanced.wellFormed (balanced : shared.Balanced place) :
    (shared.settled place).WellFormed := by
  have semaphores := balanced.semaphores
  refine ⟨balanced.head, balanced.tail, ?_⟩
  simp only [settled]
  omega

end Shared

end OSCourse.Newsroom
