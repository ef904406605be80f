import OSCourse.Library.Ring

/-!
# The bounded buffer

Embedding of `ex3/BoundedBuffer.c`.  Each operation is one step; `none` is an
operation that blocks on its semaphore.  The messages in a buffer are the ones
that its read semaphore counts, from the head on.
-/

namespace OSCourse.Newsroom

open OSCourse.Library.Ring

universe u

/-- `struct BoundedBuffer`, with the values of its semaphores. -/
structure Fields (Msg : Type u) where
  buffer : Nat → Msg
  size : Nat
  head : Nat
  tail : Nat
  id : Int
  isDone : Bool
  readSemaphore : Nat
  writeSemaphore : Nat

namespace Fields

variable {Msg : Type u}

/-- `initBuffer`, on whatever the allocated memory holds. -/
def initBuffer (memory : Nat → Msg) (bufferSize : Nat) (id : Int) :
    Fields Msg where
  buffer := memory
  size := bufferSize
  head := 0
  tail := 0
  id := id
  isDone := false
  readSemaphore := 0
  writeSemaphore := bufferSize

/-- `insertToBuffer`. -/
def insertToBuffer (bb : Fields Msg) (msg : Msg) : Option (Fields Msg) :=
  if bb.writeSemaphore = 0 then
    none
  else
    some
      { bb with
        writeSemaphore := bb.writeSemaphore - 1
        buffer := Function.update bb.buffer bb.tail msg
        tail := (bb.tail + 1) % bb.size
        readSemaphore := bb.readSemaphore + 1 }

/-- The buffer after its message at the head is removed. -/
def removed (bb : Fields Msg) : Fields Msg :=
  { bb with
    readSemaphore := bb.readSemaphore - 1
    head := (bb.head + 1) % bb.size
    writeSemaphore := bb.writeSemaphore + 1 }

/-- `removeFromBuffer`: the message at the head, once there is one. -/
def removeFromBuffer (bb : Fields Msg) : Option (Msg × Fields Msg) :=
  if bb.readSemaphore = 0 then
    none
  else
    some (bb.buffer bb.head, bb.removed)

/-- `tryRemoveFromBuffer`: `none` for NULL. -/
def tryRemoveFromBuffer (bb : Fields Msg) : Option Msg × Fields Msg :=
  if bb.readSemaphore = 0 then
    (none, bb)
  else
    (some (bb.buffer bb.head), bb.removed)

/-- `isBufferEmpty`. -/
def isBufferEmpty (bb : Fields Msg) : Bool :=
  bb.head == bb.tail

/-- The messages in the buffer. -/
def contents (bb : Fields Msg) : List Msg :=
  window bb.buffer bb.size bb.head bb.readSemaphore

/-- The semaphores count the used and the free cells behind the head. -/
structure WellFormed (bb : Fields Msg) : Prop where
  head : bb.head < bb.size
  tail : bb.tail = (bb.head + bb.readSemaphore) % bb.size
  semaphores : bb.readSemaphore + bb.writeSemaphore = bb.size

theorem wellFormed_initBuffer (memory : Nat → Msg) {bufferSize : Nat}
    (id : Int) (positive : 0 < bufferSize) :
    (initBuffer memory bufferSize id).WellFormed :=
  ⟨positive, (Nat.mod_eq_of_lt positive).symm, Nat.zero_add _⟩

theorem WellFormed.insertToBuffer
    {bb bb' : Fields Msg} {msg : Msg} (wellFormed : bb.WellFormed)
    (inserted : bb.insertToBuffer msg = some bb') :
    bb'.WellFormed ∧ bb'.contents = bb.contents ++ [msg] ∧ bb'.id = bb.id ∧
      bb'.isDone = bb.isDone := by
  unfold Fields.insertToBuffer at inserted
  split at inserted
  · cases inserted
  · rename_i room
    cases inserted
    have semaphores := wellFormed.semaphores
    refine ⟨⟨wellFormed.head, ?_, ?_⟩, ?_, rfl, rfl⟩
    · simp only [wellFormed.tail, Nat.mod_add_mod, Nat.add_assoc]
    · simp only
      omega
    · simp only [contents, wellFormed.tail]
      exact window_push _ _ (by omega)

theorem WellFormed.removed
    {bb : Fields Msg} (wellFormed : bb.WellFormed)
    (nonempty : bb.readSemaphore ≠ 0) :
    bb.removed.WellFormed ∧
      bb.contents = bb.buffer bb.head :: bb.removed.contents := by
  have semaphores := wellFormed.semaphores
  rcases Nat.exists_eq_succ_of_ne_zero nonempty with ⟨count, counts⟩
  refine ⟨⟨?_, ?_, ?_⟩, ?_⟩
  · exact Nat.mod_lt _ (Nat.zero_lt_of_lt wellFormed.head)
  · simp only [Fields.removed, wellFormed.tail, counts, Nat.mod_add_mod,
      Nat.succ_sub_one]
    congr 1
    omega
  · simp only [Fields.removed]
    omega
  · simp only [contents, Fields.removed, counts, Nat.succ_sub_one,
      Nat.succ_eq_add_one, window_pop, Nat.mod_eq_of_lt wellFormed.head]

theorem WellFormed.removeFromBuffer
    {bb bb' : Fields Msg} {msg : Msg} (wellFormed : bb.WellFormed)
    (removed : bb.removeFromBuffer = some (msg, bb')) :
    bb'.WellFormed ∧ bb.contents = msg :: bb'.contents := by
  unfold Fields.removeFromBuffer at removed
  split at removed
  · cases removed
  · rename_i nonempty
    cases removed
    exact wellFormed.removed nonempty

theorem contents_eq_nil_iff {bb : Fields Msg} :
    bb.contents = [] ↔ bb.readSemaphore = 0 := by
  rw [← List.length_eq_zero_iff, contents, length_window]

end Fields

/-! ## Buffers in use -/

/-- A buffer whose semaphores agree with its indices. -/
structure BoundedBuffer (Msg : Type u) where
  fields : Fields Msg
  wellFormed : fields.WellFormed

namespace BoundedBuffer

variable {Msg : Type u}

def initBuffer (memory : Nat → Msg) (bufferSize : Nat) (id : Int)
    (positive : 0 < bufferSize) : BoundedBuffer Msg :=
  ⟨_, Fields.wellFormed_initBuffer memory id positive⟩

def contents (bb : BoundedBuffer Msg) : List Msg :=
  bb.fields.contents

def id (bb : BoundedBuffer Msg) : Int :=
  bb.fields.id

def isDone (bb : BoundedBuffer Msg) : Bool :=
  bb.fields.isDone

def insertToBuffer (bb : BoundedBuffer Msg) (msg : Msg) :
    Option (BoundedBuffer Msg) :=
  match inserted : bb.fields.insertToBuffer msg with
  | none => none
  | some fields =>
      some ⟨fields, (bb.wellFormed.insertToBuffer inserted).1⟩

def removeFromBuffer (bb : BoundedBuffer Msg) :
    Option (Msg × BoundedBuffer Msg) :=
  if empty : bb.fields.readSemaphore = 0 then
    none
  else
    some
      (bb.fields.buffer bb.fields.head,
        ⟨bb.fields.removed, (bb.wellFormed.removed empty).1⟩)

def tryRemoveFromBuffer (bb : BoundedBuffer Msg) :
    Option Msg × BoundedBuffer Msg :=
  match bb.removeFromBuffer with
  | none => (none, bb)
  | some (msg, bb) => (some msg, bb)

def isBufferEmpty (bb : BoundedBuffer Msg) : Bool :=
  bb.fields.isBufferEmpty

/-- `isDone = 1`. -/
def setDone (bb : BoundedBuffer Msg) : BoundedBuffer Msg :=
  ⟨{ bb.fields with isDone := true },
    ⟨bb.wellFormed.head, bb.wellFormed.tail, bb.wellFormed.semaphores⟩⟩

@[simp]
theorem contents_initBuffer (memory : Nat → Msg) {bufferSize : Nat} (id : Int)
    (positive : 0 < bufferSize) :
    (initBuffer memory bufferSize id positive).contents = [] :=
  rfl

@[simp]
theorem contents_setDone (bb : BoundedBuffer Msg) :
    bb.setDone.contents = bb.contents :=
  rfl

@[simp]
theorem id_setDone (bb : BoundedBuffer Msg) : bb.setDone.id = bb.id :=
  rfl

@[simp]
theorem isDone_setDone (bb : BoundedBuffer Msg) : bb.setDone.isDone = true :=
  rfl

/-- The bundled operations are those of the source. -/
theorem insertToBuffer_fields (bb : BoundedBuffer Msg) (msg : Msg) :
    (bb.insertToBuffer msg).map fields = bb.fields.insertToBuffer msg := by
  unfold insertToBuffer
  split
  · rename_i blocked
    rw [blocked]
    rfl
  · rename_i fields inserted
    exact inserted.symm

theorem removeFromBuffer_fields (bb : BoundedBuffer Msg) :
    bb.removeFromBuffer.map (Prod.map (fun msg => msg) fields) =
      bb.fields.removeFromBuffer := by
  unfold removeFromBuffer Fields.removeFromBuffer
  split <;> rfl

/-- What `insertToBuffer` does when it does not block. -/
theorem insertToBuffer_spec
    {bb bb' : BoundedBuffer Msg} {msg : Msg}
    (inserted : bb.insertToBuffer msg = some bb') :
    bb'.contents = bb.contents ++ [msg] ∧ bb'.id = bb.id ∧
      bb'.isDone = bb.isDone := by
  unfold insertToBuffer at inserted
  split at inserted
  · cases inserted
  · rename_i fields done
    cases inserted
    exact (bb.wellFormed.insertToBuffer done).2

/-- What `removeFromBuffer` does when it does not block. -/
theorem removeFromBuffer_spec
    {bb bb' : BoundedBuffer Msg} {msg : Msg}
    (removed : bb.removeFromBuffer = some (msg, bb')) :
    bb.contents = msg :: bb'.contents ∧ bb'.id = bb.id ∧
      bb'.isDone = bb.isDone := by
  unfold removeFromBuffer at removed
  split at removed
  · cases removed
  · rename_i nonempty
    cases removed
    exact ⟨(bb.wellFormed.removed nonempty).2, rfl, rfl⟩

theorem removeFromBuffer_eq_none_iff {bb : BoundedBuffer Msg} :
    bb.removeFromBuffer = none ↔ bb.contents = [] := by
  unfold removeFromBuffer contents
  rw [Fields.contents_eq_nil_iff]
  split <;> simp_all

end BoundedBuffer

end OSCourse.Newsroom
