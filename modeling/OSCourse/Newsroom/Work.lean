import OSCourse.Newsroom.CriticalSections

/-!
# The work that is left

Each message has a number of operations to go, and so has each end mark.  Every
operation of the room lowers the sum, except that the dispatcher may scan the
buffers in vain.
-/

namespace OSCourse.Newsroom

variable {n : Nat} {config : ConfigData n} {room next : Room n}

/-- The work of a producer: seven for each message to come, and six for its end
mark. -/
def Producer.work (info : SizeAndMessages) (thread : Producer n) : Nat :=
  match thread.pc with
  | .looping => 7 * (info.numOfMessages - thread.i) + 6
  | .inserting _ => 7 * (info.numOfMessages - thread.i) + 5
  | .exited => 0

/-- The work of the dispatcher: four for each of its end marks, four for the
message it carries, and one until it is done with its scans. -/
def Dispatcher.work : Dispatcher n → Nat
  | .checking _ _ => 13
  | .polling _ => 13
  | .forwarding _ _ _ => 17
  | .finishing .sports => 12
  | .finishing .news => 8
  | .finishing .weather => 4
  | .returned => 0

def CoEditor.work : CoEditor n → Nat
  | .inserting _ => 2
  | _ => 0

/-- The work at a producer and its buffer. -/
def Room.producerWork (config : ConfigData n) (room : Room n) (p : Fin n) :
    Nat :=
  (room.producers p).work (config.producersInfo p) +
    5 * (room.producersBufs p).contents.length

/-- The work at a co-editor and its buffer. -/
def Room.categoryWork (room : Room n) (category : Category) : Nat :=
  3 * (room.categoryBufs category).contents.length +
    (room.coEditors category).work

/-- The work that is left in the room. -/
def Room.work (config : ConfigData n) (room : Room n) : Nat :=
  (∑ p, room.producerWork config p) + room.dispatcher.work +
    (∑ category, room.categoryWork category) +
    room.toScreenBuf.contents.length

/-! ## Operations lower the work -/

/-- The work when one producer and its buffer change, and the dispatcher. -/
theorem work_lt_of_producer (p : Fin n)
    (others : ∀ q, q ≠ p →
      next.producerWork config q = room.producerWork config q)
    (categories : next.categoryWork = room.categoryWork)
    (screen : next.toScreenBuf = room.toScreenBuf)
    (less : next.producerWork config p + next.dispatcher.work <
      room.producerWork config p + room.dispatcher.work) :
    next.work config < room.work config := by
  have changed := sum_change (room.producerWork config)
    (next.producerWork config) p others
  unfold Room.work
  rw [categories, screen]
  omega

/-- The work when one co-editor and its buffer change, the dispatcher and the
buffer of the screen. -/
theorem work_lt_of_category (category : Category)
    (producers : next.producerWork config = room.producerWork config)
    (others : ∀ other, other ≠ category →
      next.categoryWork other = room.categoryWork other)
    (less : next.categoryWork category + next.dispatcher.work +
        next.toScreenBuf.contents.length <
      room.categoryWork category + room.dispatcher.work +
        room.toScreenBuf.contents.length) :
    next.work config < room.work config := by
  have changed := sum_change room.categoryWork next.categoryWork category
    others
  unfold Room.work
  rw [producers]
  omega

/-- Formatting a message lowers the work. -/
theorem work_generate {p : Fin n} {category : Category}
    (taken : generate config room p category = some next) :
    next.work config < room.work config := by
  simp only [generate] at taken
  split at taken
  · rename_i guard
    rcases guard with ⟨looping, more⟩
    cases taken
    refine work_lt_of_producer p ?_ rfl rfl ?_
    · intro q apart
      simp only [Room.producerWork, Function.update_of_ne apart]
    · simp only [Room.producerWork, Function.update_self, Producer.work,
        looping]
      omega
  · cases taken

/-- Inserting a message or the end mark of a producer lowers the work. -/
theorem work_produce {p : Fin n} (ordered : Ordered config room)
    (taken : produce config room p = some next) :
    next.work config < room.work config := by
  have bound := (ordered.producers p).bound
  simp only [produce] at taken
  split at taken
  · rename_i message inserting
    rcases Option.map_eq_some_iff.mp taken with ⟨bb, inserted, rfl⟩
    have contents := (BoundedBuffer.insertToBuffer_spec inserted).1
    refine work_lt_of_producer p ?_ rfl rfl ?_
    · intro q apart
      simp only [Room.producerWork, Function.update_of_ne apart]
    · simp only [Producer.pending, inserting, List.length_singleton] at bound
      simp only [Room.producerWork, Function.update_self, Producer.work,
        inserting, contents, List.length_append, List.length_singleton]
      omega
  · rename_i looping
    split at taken
    · cases taken
    · rcases Option.map_eq_some_iff.mp taken with ⟨bb, inserted, rfl⟩
      have contents := (BoundedBuffer.insertToBuffer_spec inserted).1
      refine work_lt_of_producer p ?_ rfl rfl ?_
      · intro q apart
        simp only [Room.producerWork, Function.update_of_ne apart]
      · simp only [Room.producerWork, Function.update_self, Producer.work,
          looping, contents, List.length_append, List.length_singleton]
        omega
  · cases taken

/-- Every operation of a co-editor lowers the work. -/
theorem work_edit {category : Category}
    (taken : edit room category = some next) :
    next.work config < room.work config := by
  simp only [edit] at taken
  split at taken
  · rename_i removing
    rcases Option.map_eq_some_iff.mp taken with ⟨⟨message, bb⟩, removed, rfl⟩
    have contents := (BoundedBuffer.removeFromBuffer_spec removed).1
    refine work_lt_of_category category rfl ?_ ?_
    · intro other apart
      simp only [Room.categoryWork, Function.update_of_ne apart]
    · simp only [Room.categoryWork, Function.update_self, removing,
        CoEditor.work, contents, List.length_cons]
      omega
  · rename_i message inserting
    rcases Option.map_eq_some_iff.mp taken with ⟨bb, inserted, rfl⟩
    have contents := (BoundedBuffer.insertToBuffer_spec inserted).1
    refine work_lt_of_category category rfl ?_ ?_
    · intro other apart
      simp only [Room.categoryWork, Function.update_of_ne apart]
    · have idle : CoEditor.work (if message.text = finishText then .exited
          else .removing : CoEditor n) = 0 := by
        split <;> rfl
      have held : (CoEditor.inserting message : CoEditor n).work = 2 := rfl
      simp only [Room.categoryWork, Function.update_self, inserting, idle,
        held, contents, List.length_append, List.length_singleton]
      omega
  · cases taken

/-- Taking a message lowers the work. -/
theorem work_print (taken : print room = some next) :
    next.work config < room.work config := by
  unfold print at taken
  split at taken
  · cases taken
  · rcases Option.map_eq_some_iff.mp taken with ⟨⟨message, bb⟩, removed, rfl⟩
    have contents := (BoundedBuffer.removeFromBuffer_spec removed).1
    have less : bb.contents.length < room.toScreenBuf.contents.length := by
      rw [contents, List.length_cons]
      omega
    dsimp only
    split
    · exact Nat.add_lt_add_left less _
    · exact Nat.add_lt_add_left less _

/-- Putting a message or an end mark lowers the work. -/
theorem work_put {category : Category} {message : Msg n}
    {bb : BoundedBuffer (Msg n)} {dispatcher : Dispatcher n}
    (inserted : (room.categoryBufs category).insertToBuffer message = some bb)
    (less : dispatcher.work + 3 < room.dispatcher.work) :
    Room.work config
        { room with
          categoryBufs := Function.update room.categoryBufs category bb
          dispatcher := dispatcher } <
      room.work config := by
  have contents := (BoundedBuffer.insertToBuffer_spec inserted).1
  refine work_lt_of_category category rfl ?_ ?_
  · intro other apart
    simp only [Room.categoryWork, Function.update_of_ne apart]
  · simp only [Room.categoryWork, Function.update_self, contents,
      List.length_append, List.length_singleton]
    omega

/-- An operation of the dispatcher that is not a vain poll lowers the work. -/
theorem work_dispatch
    (busy : ∀ i all, room.dispatcher ≠ .checking i all)
    (present : ∀ i, room.dispatcher = .polling i →
      (room.producersBufs i).contents ≠ [])
    (taken : dispatch room = some next) :
    next.work config < room.work config := by
  unfold dispatch at taken
  split at taken
  · rename_i i all checking
    exact absurd checking (busy i all)
  · rename_i i polling
    have removed := present i polling
    cases attempt : (room.producersBufs i).removeFromBuffer with
    | none =>
        exact absurd (BoundedBuffer.removeFromBuffer_eq_none_iff.mp attempt)
          removed
    | some pair =>
        rcases pair with ⟨message, bb⟩
        have contents := (BoundedBuffer.removeFromBuffer_spec attempt).1
        simp only [BoundedBuffer.tryRemoveFromBuffer, attempt] at taken
        have carried : (filed message (i + 1)).work ≤ 17 := by
          unfold filed
          split <;> simp [Dispatcher.work]
        split at taken
        · cases taken
          refine work_lt_of_producer i ?_ rfl rfl ?_
          · intro q apart
            simp only [Room.producerWork, Function.update_of_ne apart]
          · simp only [Room.producerWork, Function.update_self, polling,
              Dispatcher.work, contents, BoundedBuffer.contents_setDone,
              List.length_cons]
            omega
        · cases taken
          refine work_lt_of_producer i ?_ rfl rfl ?_
          · intro q apart
            simp only [Room.producerWork, Function.update_of_ne apart]
          · simp only [Room.producerWork, Function.update_self, polling,
              Dispatcher.work, contents, List.length_cons] at carried ⊢
            omega
  · rename_i category message i forwarding
    rcases Option.map_eq_some_iff.mp taken with ⟨bb, inserted, rfl⟩
    refine work_put inserted ?_
    simp [forwarding, Dispatcher.work]
  · rename_i category finishing
    rcases Option.map_eq_some_iff.mp taken with ⟨bb, inserted, rfl⟩
    refine work_put inserted ?_
    rw [finishing]
    cases category <;> simp [Category.following, Dispatcher.work]
  · cases taken

/-- Going on with a scan does not raise the work. -/
theorem work_scan (config : ConfigData n) {dispatcher : Dispatcher n}
    (less : dispatcher.work ≤ room.dispatcher.work) :
    Room.work config { room with dispatcher := dispatcher } ≤
      room.work config := by
  simp only [Room.work, Room.producerWork, Room.categoryWork]
  omega

end OSCourse.Newsroom
