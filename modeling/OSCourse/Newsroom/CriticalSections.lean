import OSCourse.Newsroom.Simulation

/-!
# The critical sections in the room

What a thread does in its critical section is the operation of the room, and
the room stays in order through every step of the interleaving.
-/

namespace OSCourse.Newsroom

open OSCourse.Library.TransitionSystem

variable {n : Nat} {config : ConfigData n} {floor next : Floor n}
variable {room : Room n}

/-! ## Critical sections -/

theorem Fields.insertToBuffer_markDone {Msg : Type} (bb : Fields Msg)
    (seen : Bool) (msg : Msg) :
    (bb.markDone seen).insertToBuffer msg =
      (bb.insertToBuffer msg).map (Fields.markDone seen) := by
  cases seen with
  | false =>
      unfold insertToBuffer
      rw [markDone_false]
      split <;> rfl
  | true =>
      unfold insertToBuffer
      simp only [markDone, if_true]
      split <;> rfl

theorem Fields.removeFromBuffer_markDone {Msg : Type} (bb : Fields Msg)
    (seen : Bool) :
    (bb.markDone seen).removeFromBuffer =
      bb.removeFromBuffer.map fun (msg, bb) => (msg, bb.markDone seen) := by
  cases seen with
  | false =>
      unfold removeFromBuffer
      rw [markDone_false]
      split <;> rfl
  | true =>
      unfold removeFromBuffer
      simp only [markDone, if_true]
      split <;> rfl

/-- A buffer of the room does what its fields do. -/
theorem BoundedBuffer.insertToBuffer_of_fields {Msg : Type}
    {bb : BoundedBuffer Msg} {msg : Msg} {fields : Fields Msg}
    (inserted : bb.fields.insertToBuffer msg = some fields) :
    ∃ bb', bb.insertToBuffer msg = some bb' ∧ bb'.fields = fields := by
  rw [← insertToBuffer_fields] at inserted
  exact Option.map_eq_some_iff.mp inserted

theorem BoundedBuffer.removeFromBuffer_of_fields {Msg : Type}
    {bb : BoundedBuffer Msg} {msg : Msg} {fields : Fields Msg}
    (removed : bb.fields.removeFromBuffer = some (msg, fields)) :
    ∃ bb', bb.removeFromBuffer = some (msg, bb') ∧ bb'.fields = fields := by
  rw [← removeFromBuffer_fields] at removed
  rcases Option.map_eq_some_iff.mp removed with ⟨⟨other, bb'⟩, done, equal⟩
  cases equal
  exact ⟨bb', done, rfl⟩

namespace Floor

variable {t : Thread n} {place : Place n} {message : Msg n}

theorem settle_store {α : Type} (inserted : α → α)
    (removed : Place n → Msg n → α → α) (state : α) (other : Thread n) :
    ((floor.shared.store t place message).stage other).settle inserted removed
        state =
      if other = t then inserted state
      else (floor.shared.stage other).settle inserted removed state := by
  simp only [Shared.store, Shared.put]
  split
  · rename_i same
    rw [same, Function.update_self]
    rfl
  · rename_i apart
    rw [Function.update_of_ne apart]

theorem settle_take {α : Type} (inserted : α → α)
    (removed : Place n → Msg n → α → α) (state : α) (other : Thread n) :
    ((floor.shared.take t place).2.stage other).settle inserted removed
        state =
      if other = t then removed place (floor.shared.take t place).1 state
      else (floor.shared.stage other).settle inserted removed state := by
  simp only [Shared.take, Shared.put]
  split
  · rename_i same
    rw [same, Function.update_self]
    rfl
  · rename_i apart
    rw [Function.update_of_ne apart]

/-- Storing inserts into the buffer of the room. -/
theorem bufNow_store (balanced : ∀ place, floor.shared.Balanced place)
    (storing : floor.shared.stage t = .storing place message)
    (stored : next = { floor with
      shared := floor.shared.store t place message }) :
    (floor.bufNow place).insertToBuffer message = some (next.bufNow place) ∧
      ∀ other, other ≠ place → next.bufNow other = floor.bufNow other := by
  subst stored
  rcases Shared.store_balanced balanced storing with ⟨-, inserted, others⟩
  have marking : ∀ other, Floor.marking { floor with
      shared := floor.shared.store t place message } other =
      floor.marking other := by
    intro other
    refine (settle_store _ _ _ _).trans ?_
    split
    · rename_i same
      rw [Floor.marking, same, storing]
      rfl
    · rfl
  constructor
  · rw [bufNow, Fields.insertToBuffer_markDone, inserted, bufNow, marking]
    rfl
  · intro other apart
    rw [bufNow, bufNow, marking, others other apart]

/-- Taking removes from the buffer of the room, and the dispatcher marks it. -/
theorem bufNow_take (balanced : ∀ place, floor.shared.Balanced place)
    (taking : floor.shared.stage t = .taking place)
    (took : next = { floor with shared := (floor.shared.take t place).2 }) :
    (∃ bb, (floor.bufNow place).removeFromBuffer =
        some ((floor.shared.take t place).1, bb) ∧
      next.bufNow place = bb.markDone (decide (t = .dispatcher ∧
        (floor.shared.take t place).1.text = finishText))) ∧
      ∀ other, other ≠ place → next.bufNow other = floor.bufNow other := by
  subst took
  rcases Shared.take_balanced balanced taking with ⟨-, removed, others⟩
  have marking : ∀ other, Floor.marking { floor with
      shared := (floor.shared.take t place).2 } other =
      if .dispatcher = t then
        decide (place = other ∧
          (floor.shared.take t place).1.text = finishText)
      else floor.marking other :=
    fun other => settle_take _ _ _ _
  by_cases dispatcher : t = .dispatcher
  · subst dispatcher
    have before : ∀ other, floor.marking other = false := by
      intro other
      rw [Floor.marking, taking]
      rfl
    constructor
    · refine ⟨(floor.shared.take .dispatcher place).2.settled place, ?_, ?_⟩
      · rw [bufNow, before, Fields.markDone_false]
        exact removed
      · rw [bufNow, marking]
        simp
    · intro other apart
      rw [bufNow, bufNow, marking, before, others other apart]
      simp [Ne.symm apart]
  · have same : ∀ other, Floor.marking { floor with
        shared := (floor.shared.take t place).2 } other =
        floor.marking other := by
      intro other
      rw [marking, if_neg (Ne.symm dispatcher)]
    constructor
    · refine ⟨((floor.shared.take t place).2.settled place).markDone
        (floor.marking place), ?_, ?_⟩
      · rw [bufNow, Fields.removeFromBuffer_markDone, removed]
        rfl
      · rw [bufNow, same]
        simp [dispatcher, Fields.markDone_false]
    · intro other apart
      rw [bufNow, bufNow, same, others other apart]

end Floor

/-- The room with another buffer in one place. -/
def Room.setBuf (room : Room n) (bb : BoundedBuffer (Msg n)) :
    Place n → Room n
  | .producer p =>
      { room with producersBufs := Function.update room.producersBufs p bb }
  | .category category =>
      { room with
        categoryBufs := Function.update room.categoryBufs category bb }
  | .screen => { room with toScreenBuf := bb }

/-- The buffers of the room after a critical section. -/
theorem Views.setBuf {place : Place n} {bb : BoundedBuffer (Msg n)}
    (views : Views floor room) (here : bb.fields = next.bufNow place)
    (others : ∀ other, other ≠ place →
      next.bufNow other = floor.bufNow other) :
    (∀ p, ((room.setBuf bb place).producersBufs p).fields =
        next.bufNow (.producer p)) ∧
      (∀ category, ((room.setBuf bb place).categoryBufs category).fields =
        next.bufNow (.category category)) ∧
      (room.setBuf bb place).toScreenBuf.fields = next.bufNow .screen := by
  have producers : ∀ p, Place.producer p ≠ place →
      (room.producersBufs p).fields = next.bufNow (.producer p) := by
    intro p apart
    rw [views.producersBufs, others _ apart]
  have categories : ∀ category, Place.category category ≠ place →
      (room.categoryBufs category).fields =
        next.bufNow (.category category) := by
    intro category apart
    rw [views.categoryBufs, others _ apart]
  have screen : Place.screen ≠ place →
      room.toScreenBuf.fields = next.bufNow .screen := by
    intro apart
    rw [views.toScreenBuf, others _ apart]
  cases place with
  | producer p =>
      refine ⟨?_, fun category => categories category (by simp),
        screen (by simp)⟩
      intro q
      by_cases same : q = p
      · subst same
        simpa [Room.setBuf] using here
      · simp only [Room.setBuf, Function.update_of_ne same]
        exact producers q (by simpa using same)
  | category category =>
      refine ⟨fun p => producers p (by simp), ?_, screen (by simp)⟩
      intro other
      by_cases same : other = category
      · subst same
        simpa [Room.setBuf] using here
      · simp only [Room.setBuf, Function.update_of_ne same]
        exact categories other (by simpa using same)
  | screen =>
      exact ⟨fun p => producers p (by simp),
        fun category => categories category (by simp), here⟩

/-- The buffer of the room in one place. -/
def Room.bufAt (room : Room n) : Place n → BoundedBuffer (Msg n)
  | .producer p => room.producersBufs p
  | .category category => room.categoryBufs category
  | .screen => room.toScreenBuf

theorem Views.bufAt (views : Views floor room) (place : Place n) :
    (room.bufAt place).fields = floor.bufNow place := by
  cases place with
  | producer p => exact views.producersBufs p
  | category category => exact views.categoryBufs category
  | screen => exact views.toScreenBuf

section Enter

variable {t : Thread n} {place : Place n} {message : Msg n}

/-- The room after a thread has stored a message. -/
theorem Views.store (views : Views floor room)
    (balanced : ∀ place, floor.shared.Balanced place)
    (storing : floor.shared.stage t = .storing place message)
    (stored : next = { floor with
      shared := floor.shared.store t place message }) :
    ∃ bb, (room.bufAt place).insertToBuffer message = some bb ∧
      Views next
        { room.setBuf bb place with
          producers := next.producerNow
          dispatcher := next.dispatcherNow
          coEditors := next.coEditorNow } := by
  rcases Floor.bufNow_store balanced storing stored with ⟨inserted, others⟩
  rw [← views.bufAt] at inserted
  rcases BoundedBuffer.insertToBuffer_of_fields inserted with
    ⟨bb, done, fields⟩
  rcases views.setBuf fields others with ⟨producers, categories, screen⟩
  have screenNow : next.screenNow = floor.screenNow := by
    rw [stored]
    refine (Floor.settle_store _ _ _ _).trans ?_
    split
    · rename_i same
      rw [Floor.screenNow, same, storing]
      rfl
    · rfl
  refine ⟨bb, done, producers, categories, screen, rfl, rfl, rfl, ?_, ?_, ?_⟩
  · rw [screenNow]
    cases place <;> exact views.doneCount
  · rw [screenNow]
    cases place <;> exact views.output
  · rw [stored]
    cases place <;> exact views.generated

/-- The room after a thread has taken a message. -/
theorem Views.take (views : Views floor room)
    (balanced : ∀ place, floor.shared.Balanced place)
    (taking : floor.shared.stage t = .taking place)
    (took : next = { floor with shared := (floor.shared.take t place).2 }) :
    ∃ bb, (room.bufAt place).removeFromBuffer =
        some ((floor.shared.take t place).1, bb) ∧
      ∀ bb' : BoundedBuffer (Msg n),
        bb'.fields = bb.fields.markDone (decide (t = .dispatcher ∧
          (floor.shared.take t place).1.text = finishText)) →
        Views next
          { room.setBuf bb' place with
            producers := next.producerNow
            dispatcher := next.dispatcherNow
            coEditors := next.coEditorNow
            doneCount := next.screenNow.doneCount
            output := next.screenNow.output } := by
  rcases Floor.bufNow_take balanced taking took with
    ⟨⟨fields, removed, marked⟩, others⟩
  rw [← views.bufAt] at removed
  rcases BoundedBuffer.removeFromBuffer_of_fields removed with
    ⟨bb, done, rfl⟩
  refine ⟨bb, done, ?_⟩
  intro bb' equal
  rcases views.setBuf (equal.trans marked.symm) others with
    ⟨producers, categories, screen⟩
  refine ⟨producers, categories, screen, rfl, rfl, rfl, rfl, rfl, ?_⟩
  rw [took]
  cases place <;> exact views.generated

/-- What a thread other than `t` has done is the same in the room as before. -/
structure OthersKept (room : Room n) (next : Floor n) (t : Thread n) :
    Prop where
  producer : ∀ p, .producer p ≠ t → next.producerNow p = room.producers p
  dispatcher : .dispatcher ≠ t → next.dispatcherNow = room.dispatcher
  coEditor : ∀ category, .coEditor category ≠ t →
    next.coEditorNow category = room.coEditors category

theorem Views.othersKept_store (views : Views floor room)
    (stored : next = { floor with
      shared := floor.shared.store t place message }) :
    OthersKept room next t := by
  subst stored
  constructor
  · intro p apart
    rw [views.producers]
    exact (Floor.settle_store _ _ _ _).trans (if_neg apart)
  · intro apart
    rw [views.dispatcher]
    exact (Floor.settle_store _ _ _ _).trans (if_neg apart)
  · intro category apart
    rw [views.coEditors]
    exact (Floor.settle_store _ _ _ _).trans (if_neg apart)

theorem Views.othersKept_take (views : Views floor room)
    (took : next = { floor with shared := (floor.shared.take t place).2 }) :
    OthersKept room next t := by
  subst took
  constructor
  · intro p apart
    rw [views.producers]
    exact (Floor.settle_take _ _ _ _).trans (if_neg apart)
  · intro apart
    rw [views.dispatcher]
    exact (Floor.settle_take _ _ _ _).trans (if_neg apart)
  · intro category apart
    rw [views.coEditors]
    exact (Floor.settle_take _ _ _ _).trans (if_neg apart)

theorem OthersKept.producers_eq (others : OthersKept room next t)
    (apart : ∀ p, .producer p ≠ t) : next.producerNow = room.producers :=
  funext fun p => others.producer p (apart p)

theorem OthersKept.coEditors_eq (others : OthersKept room next t)
    (apart : ∀ category, .coEditor category ≠ t) :
    next.coEditorNow = room.coEditors :=
  funext fun category => others.coEditor category (apart category)

end Enter

/-! ### The critical sections of each thread -/

theorem Producer.request_eq_some {info : SizeAndMessages} {p : Fin n}
    {thread : Producer n} {request : Request (Place n) (Msg n)}
    (asked : thread.request info p = some request) :
    (∃ message, thread.pc = .inserting message ∧
        request = .insert (.producer p) message) ∨
      (thread.pc = .looping ∧ ¬ thread.i < info.numOfMessages ∧
        request = .insert (.producer p) finishMsg) := by
  unfold Producer.request at asked
  split at asked
  · rename_i message inserting
    cases asked
    exact .inl ⟨message, inserting, rfl⟩
  · rename_i looping
    split at asked
    · cases asked
    · rename_i ended
      cases asked
      exact .inr ⟨looping, ended, rfl⟩
  · cases asked

/-- What a thread past its wait is about to do in its critical section. -/
theorem Floor.enter_eq_some {t : Thread n} (agrees : floor.Agrees config t)
    (taken : floor.enter t = some next) :
    (∃ place message, floor.shared.stage t = .storing place message ∧
        floor.request config t = some (.insert place message) ∧
        next = { floor with shared := floor.shared.store t place message }) ∨
      ∃ place, floor.shared.stage t = .taking place ∧
        floor.request config t = some (.remove place) ∧
        next = { floor with shared := (floor.shared.take t place).2 } := by
  unfold Floor.Agrees at agrees
  unfold Floor.enter at taken
  split at taken
  · rename_i place message stage
    rw [stage] at agrees
    exact .inl ⟨place, message, stage, agrees, (Option.some.inj taken).symm⟩
  · rename_i place stage
    rw [stage] at agrees
    exact .inr ⟨place, stage, agrees, (Option.some.inj taken).symm⟩
  · cases taken

theorem Views.enter_producer {p : Fin n} (views : Views floor room)
    (balanced : ∀ place, floor.shared.Balanced place)
    (agrees : floor.Agrees config (.producer p))
    (taken : floor.enter (.producer p) = some next) :
    ∃ room', exec config room (.produce p) = some room' ∧
      Views next room' := by
  rcases Floor.enter_eq_some agrees taken with
    ⟨place, message, storing, asked, stored⟩ | ⟨place, _, asked, _⟩
  · rcases views.store balanced storing stored with ⟨bb, inserted, kept⟩
    refine ⟨_, ?_, kept⟩
    have thread : room.producers p = floor.producers p := by
      rw [views.producers, Floor.producerNow, storing]
      rfl
    have others := views.othersKept_store stored
    have producers : next.producerNow = Function.update room.producers p
        (floor.producers p).inserted := by
      refine Function.eq_update_iff.mpr ⟨?_, fun q apart => ?_⟩
      · rw [stored]
        exact (Floor.settle_store _ _ _ _).trans (if_pos rfl)
      · exact others.producer q (by simpa using apart)
    have dispatcher := others.dispatcher (by simp)
    have coEditors := others.coEditors_eq (by simp)
    rcases Producer.request_eq_some asked with
      ⟨message, inserting, ⟨⟩⟩ | ⟨looping, ended, ⟨⟩⟩
    · simp only [exec, produce, thread, inserting]
      rw [show (room.producersBufs p).insertToBuffer _ = _ from inserted]
      simp [Room.setBuf, producers, dispatcher, coEditors, Producer.inserted,
        inserting]
    · simp only [exec, produce, thread, looping, if_neg ended]
      rw [show (room.producersBufs p).insertToBuffer _ = _ from inserted]
      simp [Room.setBuf, producers, dispatcher, coEditors, Producer.inserted,
        looping]
  · rcases Producer.request_eq_some asked with
      ⟨_, _, ⟨⟩⟩ | ⟨_, _, ⟨⟩⟩

theorem Views.enter_coEditor {category : Category} (views : Views floor room)
    (balanced : ∀ place, floor.shared.Balanced place)
    (agrees : floor.Agrees config (.coEditor category))
    (taken : floor.enter (.coEditor category) = some next) :
    ∃ room', exec config room (.edit category) = some room' ∧
      Views next room' := by
  rcases Floor.enter_eq_some agrees taken with
    ⟨place, message, storing, asked, stored⟩ | ⟨place, taking, asked, took⟩
  · rcases views.store balanced storing stored with ⟨bb, inserted, kept⟩
    refine ⟨_, ?_, kept⟩
    have thread : room.coEditors category = floor.coEditors category := by
      rw [views.coEditors, Floor.coEditorNow, storing]
      rfl
    have others := views.othersKept_store stored
    have coEditors : next.coEditorNow = Function.update room.coEditors category
        (floor.coEditors category).inserted := by
      refine Function.eq_update_iff.mpr ⟨?_, fun other apart => ?_⟩
      · rw [stored]
        exact (Floor.settle_store _ _ _ _).trans (if_pos rfl)
      · exact others.coEditor other (by simpa using apart)
    have dispatcher := others.dispatcher (by simp)
    have producers := others.producers_eq (by simp)
    simp only [Floor.request] at asked
    cases editor : floor.coEditors category with
    | inserting held =>
        rw [editor] at asked
        cases asked
        simp only [exec, edit, thread, editor]
        rw [show room.toScreenBuf.insertToBuffer _ = _ from inserted]
        simp [Room.setBuf, producers, dispatcher, coEditors,
          CoEditor.inserted, editor]
    | removing =>
        rw [editor] at asked
        cases asked
    | exited =>
        rw [editor] at asked
        cases asked
  · rcases views.take balanced taking took with ⟨bb, removed, kept⟩
    refine ⟨_, ?_, kept bb (by simp [Fields.markDone])⟩
    have thread : room.coEditors category = floor.coEditors category := by
      rw [views.coEditors, Floor.coEditorNow, taking]
      rfl
    have others := views.othersKept_take took
    have coEditors : next.coEditorNow = Function.update room.coEditors category
        (.inserting (floor.shared.take (.coEditor category) place).1) := by
      refine Function.eq_update_iff.mpr ⟨?_, fun other apart => ?_⟩
      · rw [took]
        exact (Floor.settle_take _ _ _ _).trans (if_pos rfl)
      · exact others.coEditor other (by simpa using apart)
    have dispatcher := others.dispatcher (by simp)
    have producers := others.producers_eq (by simp)
    have screen : next.screenNow = floor.screenNow := by
      rw [took]
      exact Floor.settle_take _ _ _ _
    simp only [Floor.request] at asked
    cases editor : floor.coEditors category with
    | removing =>
        rw [editor] at asked
        cases asked
        simp only [exec, edit, thread, editor]
        rw [show (room.categoryBufs category).removeFromBuffer = _ from
          removed]
        simp [Room.setBuf, producers, dispatcher, coEditors, screen,
          ← views.doneCount, ← views.output]
    | inserting held =>
        rw [editor] at asked
        cases asked
    | exited =>
        rw [editor] at asked
        cases asked

theorem Views.enter_screenManager (views : Views floor room)
    (balanced : ∀ place, floor.shared.Balanced place)
    (agrees : floor.Agrees config .screenManager)
    (taken : floor.enter .screenManager = some next) :
    ∃ room', exec config room .print = some room' ∧ Views next room' := by
  rcases Floor.enter_eq_some agrees taken with
    ⟨place, message, storing, asked, stored⟩ | ⟨place, taking, asked, took⟩
  · simp only [Floor.request, Screen.request] at asked
    split at asked
    · cases asked
    · cases asked
  · rcases views.take balanced taking took with ⟨bb, removed, kept⟩
    refine ⟨_, ?_, kept bb (by simp [Fields.markDone])⟩
    have now : floor.screenNow = floor.screen := by
      rw [Floor.screenNow, taking]
      rfl
    have screen : next.screenNow = floor.screen.removed
        (floor.shared.take .screenManager place).1 := by
      rw [took]
      exact Floor.settle_take _ _ _ _
    have others := views.othersKept_take took
    have coEditors := others.coEditors_eq (by simp)
    have dispatcher := others.dispatcher (by simp)
    have producers := others.producers_eq (by simp)
    have doneCount := views.doneCount
    have output := views.output
    rw [now] at doneCount output
    simp only [Floor.request, Screen.request] at asked
    split at asked
    · cases asked
    · rename_i looping
      cases asked
      simp only [exec, print, doneCount, if_neg looping]
      rw [show room.toScreenBuf.removeFromBuffer = _ from removed]
      simp only [Option.map_some, screen, Screen.removed]
      split
      · simp [Room.setBuf, producers, dispatcher, coEditors, output]
      · simp [Room.setBuf, producers, dispatcher, coEditors, output, doneCount]

theorem Views.enter_dispatcher (views : Views floor room)
    (balanced : ∀ place, floor.shared.Balanced place)
    (agrees : floor.Agrees config .dispatcher)
    (taken : floor.enter .dispatcher = some next) :
    ∃ room', exec config room .dispatch = some room' ∧ Views next room' := by
  rcases Floor.enter_eq_some agrees taken with
    ⟨place, message, storing, asked, stored⟩ | ⟨place, taking, asked, took⟩
  · rcases views.store balanced storing stored with ⟨bb, inserted, kept⟩
    refine ⟨_, ?_, kept⟩
    have thread : room.dispatcher = floor.dispatcher := by
      rw [views.dispatcher, Floor.dispatcherNow, storing]
      rfl
    have dispatcher : next.dispatcherNow = floor.dispatcher.inserted := by
      rw [stored]
      exact Floor.settle_store _ _ _ _
    have others := views.othersKept_store stored
    have coEditors := others.coEditors_eq (by simp)
    have producers := others.producers_eq (by simp)
    simp only [Floor.request] at asked
    cases code : floor.dispatcher with
    | forwarding category held i =>
        rw [code] at asked
        cases asked
        simp only [exec, dispatch, thread, code]
        rw [show (room.categoryBufs category).insertToBuffer _ = _ from
          inserted]
        simp [Room.setBuf, producers, dispatcher, coEditors,
          Dispatcher.inserted, code]
    | finishing category =>
        rw [code] at asked
        cases asked
        simp only [exec, dispatch, thread, code]
        rw [show (room.categoryBufs category).insertToBuffer _ = _ from
          inserted]
        simp [Room.setBuf, producers, dispatcher, coEditors,
          Dispatcher.inserted, code]
    | checking i all =>
        rw [code] at asked
        cases asked
    | polling i =>
        rw [code] at asked
        cases asked
    | returned =>
        rw [code] at asked
        cases asked
  · rcases views.take balanced taking took with ⟨bb, removed, kept⟩
    have thread : room.dispatcher = floor.dispatcher := by
      rw [views.dispatcher, Floor.dispatcherNow, taking]
      rfl
    have dispatcher : next.dispatcherNow = floor.dispatcher.removed
        (floor.shared.take .dispatcher place).1 := by
      rw [took]
      exact Floor.settle_take _ _ _ _
    have others := views.othersKept_take took
    have coEditors := others.coEditors_eq (by simp)
    have producers := others.producers_eq (by simp)
    have screen : next.screenNow = floor.screenNow := by
      rw [took]
      exact Floor.settle_take _ _ _ _
    simp only [Floor.request] at asked
    cases code : floor.dispatcher with
    | polling i =>
        rw [code] at asked
        cases asked
        simp only [exec, dispatch, thread, code,
          BoundedBuffer.tryRemoveFromBuffer]
        rw [show (room.producersBufs i).removeFromBuffer = _ from removed]
        by_cases mark :
            (floor.shared.take .dispatcher (.producer i)).1.text = finishText
        · refine ⟨_, ?_, kept bb.setDone ?_⟩
          · simp [mark, Room.setBuf, producers, dispatcher, coEditors, screen,
              ← views.doneCount, ← views.output, Dispatcher.removed, code]
          · simp [mark, Fields.markDone, BoundedBuffer.setDone]
        · refine ⟨_, ?_, kept bb ?_⟩
          · simp [mark, Room.setBuf, producers, dispatcher, coEditors, screen,
              ← views.doneCount, ← views.output, Dispatcher.removed, code]
          · simp [mark, Fields.markDone]
    | forwarding category held i =>
        rw [code] at asked
        cases asked
    | finishing category =>
        rw [code] at asked
        cases asked
    | checking i all =>
        rw [code] at asked
        cases asked
    | returned =>
        rw [code] at asked
        cases asked

/-! ## Steps between operations -/

theorem Fields.markDone_id {Msg : Type} (bb : Fields Msg) (seen : Bool) :
    (bb.markDone seen).id = bb.id := by
  cases seen <;> rfl

/-- A message is formatted in the room as well. -/
theorem Views.generate {p : Fin n} {category : Category}
    (views : Views floor room)
    (taken : floor.generate config p category = some next) :
    ∃ room', exec config room (.generate p category) = some room' ∧
      Views next room' := by
  simp only [Floor.generate] at taken
  split at taken
  · rename_i guard
    rcases guard with ⟨looping, more, outside⟩
    cases taken
    have thread : room.producers p = floor.producers p := by
      rw [views.producers, Floor.producerNow, outside]
      rfl
    have id : (room.producersBufs p).id =
        (floor.shared.bufs (.producer p)).id := by
      rw [BoundedBuffer.id, views.producersBufs, Floor.bufNow,
        Fields.markDone_id]
      rfl
    refine ⟨_, if_pos ?_, views.producersBufs, views.categoryBufs,
      views.toScreenBuf, ?_, views.dispatcher, views.coEditors,
      views.doneCount, views.output, ?_⟩
    · rw [thread]
      exact ⟨looping, more⟩
    · funext q
      by_cases same : q = p
      · subst same
        simp [Floor.producerNow, outside, Stage.settle, thread, id]
      · simp only [Function.update_of_ne same, Floor.producerNow,
          views.producers]
    · simp only [thread, id, views.generated]
  · cases taken

/-- The room when the dispatcher goes on between two operations. -/
theorem Views.scan (views : Views floor room)
    (outside : floor.shared.stage .dispatcher = .outside)
    (dispatcher : Dispatcher n) :
    Views { floor with dispatcher := dispatcher }
      { room with dispatcher := dispatcher } := by
  refine ⟨views.producersBufs, views.categoryBufs, views.toScreenBuf,
    views.producers, ?_, views.coEditors, views.doneCount, views.output,
    views.generated⟩
  simp only [Floor.dispatcherNow, outside, Stage.settle]

/-- Between two operations the dispatcher sees the buffers of the room. -/
theorem Views.bufNow_outside
    (outside : floor.shared.stage .dispatcher = .outside) (place : Place n) :
    floor.bufNow place = floor.shared.settled place := by
  rw [Floor.bufNow, Floor.marking, outside]
  rfl

/-- The done test and the end of a scan are the same in the room. -/
theorem Views.check (config : ConfigData n) (views : Views floor room)
    (taken : floor.check = some next) :
    ∃ dispatcher, floor.shared.stage .dispatcher = .outside ∧
      next = { floor with dispatcher := dispatcher } ∧
      exec config room .dispatch =
        some { room with dispatcher := dispatcher } := by
  unfold Floor.check at taken
  split at taken
  · rename_i i all outside checking
    have thread : room.dispatcher = .checking i all := by
      rw [views.dispatcher, Floor.dispatcherNow, outside, ← checking]
      rfl
    have fields : ∀ p, (room.producersBufs p).fields =
        floor.shared.settled (.producer p) := by
      intro p
      rw [views.producersBufs, bufNow_outside outside]
    simp only [exec, dispatch, thread, BoundedBuffer.isDone,
      BoundedBuffer.isBufferEmpty, fields]
    split at taken
    · rename_i inside
      rw [dif_pos inside]
      dsimp only at taken
      split at taken
      · rename_i done
        exact ⟨_, outside, (Option.some.inj taken).symm, if_pos done⟩
      · rename_i active
        exact ⟨_, outside, (Option.some.inj taken).symm, if_neg active⟩
    · rename_i ended
      rw [dif_neg ended]
      split at taken
      · rename_i done
        exact ⟨_, outside, (Option.some.inj taken).symm, if_pos done⟩
      · rename_i active
        exact ⟨_, outside, (Option.some.inj taken).symm, if_neg active⟩
  · cases taken

/-- What a failed `sem_trywait` does. -/
theorem Floor.refuse_eq_some (taken : floor.refuse = some next) :
    ∃ i, floor.shared.stage .dispatcher = .outside ∧
      floor.dispatcher = .polling i ∧
      (floor.shared.bufs (.producer i)).readSemaphore = 0 ∧
      next = { floor with dispatcher := .checking (i + 1) false } := by
  unfold Floor.refuse at taken
  split at taken
  · rename_i i outside polling
    split at taken
    · rename_i empty
      exact ⟨i, outside, polling, empty, (Option.some.inj taken).symm⟩
    · cases taken
  · cases taken

/-! ## The code of the other threads -/

/-- A thread whose stage and whose code stay the same still agrees. -/
theorem Floor.Agrees.congr {t : Thread n} (agrees : floor.Agrees config t)
    (stage : next.shared.stage t = floor.shared.stage t)
    (request : next.request config t = floor.request config t) :
    next.Agrees config t := by
  unfold Floor.Agrees at agrees ⊢
  rw [stage, request]
  exact agrees

theorem Floor.agrees_outside {t : Thread n}
    (outside : floor.shared.stage t = .outside) :
    floor.Agrees config t := by
  unfold Floor.Agrees
  rw [outside]
  trivial

theorem Floor.agrees_wait {t : Thread n}
    (agrees : ∀ t, floor.Agrees config t)
    (taken : floor.wait config t = some next) (other : Thread n) :
    next.Agrees config other := by
  unfold Floor.wait at taken
  split at taken
  · rename_i request outside asked
    rcases Option.map_eq_some_iff.mp taken with ⟨shared, waited, rfl⟩
    have stage := Shared.stage_wait waited
    have code : ∀ other, Floor.request config
        { floor with shared := shared } other =
        floor.request config other := by
      intro other
      cases other <;> rfl
    by_cases same : other = t
    · subst same
      unfold Floor.Agrees
      simp only [stage, Function.update_self, code, asked]
      cases request <;> rfl
    · refine (agrees other).congr ?_ (code other)
      simp only [stage, Function.update_of_ne same]
  · cases taken

theorem Floor.agrees_enter {t : Thread n}
    (agrees : ∀ t, floor.Agrees config t)
    (taken : floor.enter t = some next) (other : Thread n) :
    next.Agrees config other := by
  have code : ∀ shared, Floor.request config
      { floor with shared := shared } other =
      floor.request config other := by
    intro shared
    cases other <;> rfl
  rcases Floor.enter_eq_some (agrees t) taken with
    ⟨place, message, storing, asked, rfl⟩ | ⟨place, taking, asked, rfl⟩
  · by_cases same : other = t
    · subst same
      unfold Floor.Agrees
      simp only [Shared.store, Shared.stage_put, code]
      exact ⟨message, asked⟩
    · refine (agrees other).congr ?_ (code _)
      simp only [Shared.store, Shared.put, Function.update_of_ne same]
  · by_cases same : other = t
    · subst same
      unfold Floor.Agrees
      simp only [Shared.take, Shared.stage_put, code]
      exact asked
    · refine (agrees other).congr ?_ (code _)
      simp only [Shared.take, Shared.put, Function.update_of_ne same]

theorem Floor.request_settle
    {shared : Shared (Thread n) (Place n) (Msg n)} {t other : Thread n}
    (apart : other ≠ t) :
    (floor.settle shared t).request config other =
      floor.request config other := by
  cases t with
  | producer p =>
      cases other with
      | producer q =>
          have different : q ≠ p := by simpa using apart
          simp only [Floor.request, Floor.settle,
            Function.update_of_ne different]
      | dispatcher => rfl
      | coEditor category => rfl
      | screenManager => rfl
  | coEditor category =>
      cases other with
      | coEditor editor =>
          have different : editor ≠ category := by simpa using apart
          simp only [Floor.request, Floor.settle,
            Function.update_of_ne different]
      | producer q => rfl
      | dispatcher => rfl
      | screenManager => rfl
  | dispatcher =>
      cases other with
      | dispatcher => exact absurd rfl apart
      | _ => rfl
  | screenManager =>
      cases other with
      | screenManager => exact absurd rfl apart
      | _ => rfl

theorem Floor.agrees_post {t : Thread n}
    (agrees : ∀ t, floor.Agrees config t)
    (taken : floor.post t = some next) (other : Thread n) :
    next.Agrees config other := by
  rcases Floor.post_eq_settle taken with ⟨shared, posted, rfl⟩
  have stage : (floor.settle shared t).shared.stage =
      Function.update floor.shared.stage t .outside := by
    rw [← Shared.stage_post posted]
    cases t <;> rfl
  by_cases same : other = t
  · subst same
    apply agrees_outside
    rw [stage, Function.update_self]
  · refine (agrees other).congr ?_ (request_settle same)
    rw [stage, Function.update_of_ne same]

/-! ## The room stays in order -/

theorem Shared.Balanced.markDone
    {shared : Shared (Thread n) (Place n) (Msg n)} {place : Place n}
    (balanced : shared.Balanced place) (seen : Place n → Bool) :
    Shared.Balanced
      { shared with
        bufs := fun other => (shared.bufs other).markDone (seen other) }
      place := by
  rcases balanced with ⟨head, tail, semaphores⟩
  simp only [Shared.stored] at tail semaphores
  constructor
  all_goals
    simp only [Shared.stored, Shared.items, Shared.rooms, Fields.markDone]
    split <;> assumption

theorem Tracked.wait {t : Thread n} (tracked : Tracked config floor room)
    (taken : floor.wait config t = some next) :
    Tracked config next room := by
  refine ⟨?_, Floor.agrees_wait tracked.agrees taken,
    tracked.views.wait tracked.balanced taken, tracked.ordered⟩
  unfold Floor.wait at taken
  split at taken
  · rename_i request outside asked
    rcases Option.map_eq_some_iff.mp taken with ⟨shared, waited, rfl⟩
    exact (Shared.wait_balanced outside tracked.balanced waited).1
  · cases taken

theorem Tracked.post {t : Thread n} (tracked : Tracked config floor room)
    (taken : floor.post t = some next) :
    Tracked config next room := by
  refine ⟨?_, Floor.agrees_post tracked.agrees taken,
    tracked.views.post tracked.balanced taken, tracked.ordered⟩
  rcases Floor.post_eq_settle taken with ⟨shared, posted, rfl⟩
  have balanced := (Shared.post_balanced tracked.balanced posted).1
  cases t with
  | dispatcher => exact fun place => (balanced place).markDone floor.marking
  | producer p => exact balanced
  | coEditor category => exact balanced
  | screenManager => exact balanced

/-- The operation of the room that a thread carries out. -/
def Thread.label : Thread n → Label n
  | .producer p => .produce p
  | .dispatcher => .dispatch
  | .coEditor category => .edit category
  | .screenManager => .print

theorem Tracked.enter {t : Thread n} (tracked : Tracked config floor room)
    (taken : floor.enter t = some next) :
    ∃ room', exec config room t.label = some room' ∧
      Tracked config next room' := by
  have balanced : ∀ place, next.shared.Balanced place := by
    rcases Floor.enter_eq_some (tracked.agrees t) taken with
      ⟨place, message, storing, -, rfl⟩ | ⟨place, taking, -, rfl⟩
    · exact (Shared.store_balanced tracked.balanced storing).1
    · exact (Shared.take_balanced tracked.balanced taking).1
  have agrees := Floor.agrees_enter tracked.agrees taken
  have entered : ∃ room', exec config room t.label = some room' ∧
      Views next room' := by
    cases t with
    | producer p =>
        exact tracked.views.enter_producer tracked.balanced
          (tracked.agrees _) taken
    | dispatcher =>
        exact tracked.views.enter_dispatcher tracked.balanced
          (tracked.agrees _) taken
    | coEditor category =>
        exact tracked.views.enter_coEditor tracked.balanced
          (tracked.agrees _) taken
    | screenManager =>
        exact tracked.views.enter_screenManager tracked.balanced
          (tracked.agrees _) taken
  rcases entered with ⟨room', done, views⟩
  exact ⟨room', done, balanced, agrees, views, tracked.ordered.step done⟩

theorem Tracked.generate {p : Fin n} {category : Category}
    (tracked : Tracked config floor room)
    (taken : floor.generate config p category = some next) :
    ∃ room', exec config room (.generate p category) = some room' ∧
      Tracked config next room' := by
  rcases tracked.views.generate taken with ⟨room', done, views⟩
  refine ⟨room', done, ?_, ?_, views, tracked.ordered.step done⟩
  · simp only [Floor.generate] at taken
    split at taken
    · cases taken
      exact tracked.balanced
    · cases taken
  · intro other
    simp only [Floor.generate] at taken
    split at taken
    · rename_i guard
      cases taken
      by_cases same : other = .producer p
      · subst same
        exact Floor.agrees_outside guard.2.2
      · refine (tracked.agrees other).congr rfl ?_
        cases other with
        | producer q =>
            have different : q ≠ p := by simpa using same
            simp only [Floor.request, Function.update_of_ne different]
        | dispatcher => rfl
        | coEditor category => rfl
        | screenManager => rfl
    · cases taken

/-- The dispatcher goes on between two operations. -/
theorem Tracked.scan {dispatcher : Dispatcher n}
    (tracked : Tracked config floor room)
    (outside : floor.shared.stage .dispatcher = .outside)
    (ordered : Ordered config { room with dispatcher := dispatcher }) :
    Tracked config { floor with dispatcher := dispatcher }
      { room with dispatcher := dispatcher } := by
  refine ⟨tracked.balanced, ?_, tracked.views.scan outside dispatcher,
    ordered⟩
  intro other
  cases other with
  | dispatcher => exact Floor.agrees_outside outside
  | producer p => exact tracked.agrees (.producer p)
  | coEditor category => exact tracked.agrees (.coEditor category)
  | screenManager => exact tracked.agrees .screenManager

theorem Tracked.refuse (tracked : Tracked config floor room)
    (taken : floor.refuse = some next) :
    ∃ i, floor.shared.stage .dispatcher = .outside ∧
      floor.dispatcher = .polling i ∧
      next = { floor with dispatcher := .checking (i + 1) false } ∧
      Ordered config
        { room with dispatcher := .checking (i + 1) false } := by
  rcases Floor.refuse_eq_some taken with ⟨i, outside, polling, -, rfl⟩
  have thread : room.dispatcher = .polling i := by
    rw [tracked.views.dispatcher, Floor.dispatcherNow, outside, ← polling]
    rfl
  refine ⟨i, outside, polling, rfl, ?_⟩
  exact tracked.ordered.scan (by simp [thread, Dispatcher.marked])
    (by simp [thread, Dispatcher.carried]) trivial

theorem Tracked.check (tracked : Tracked config floor room)
    (taken : floor.check = some next) :
    ∃ room', exec config room .dispatch = some room' ∧
      Tracked config next room' := by
  rcases tracked.views.check config taken with
    ⟨dispatcher, outside, rfl, done⟩
  exact ⟨_, done, tracked.scan outside (tracked.ordered.step done)⟩

theorem Tracked.step {tick : Tick n} (tracked : Tracked config floor room)
    (taken : floor.exec config tick = some next) :
    ∃ room', Tracked config next room' := by
  cases tick with
  | generate p category =>
      rcases tracked.generate taken with ⟨room', -, kept⟩
      exact ⟨room', kept⟩
  | check =>
      rcases tracked.check taken with ⟨room', -, kept⟩
      exact ⟨room', kept⟩
  | wait t => exact ⟨room, tracked.wait taken⟩
  | refuse =>
      rcases tracked.refuse taken with ⟨i, outside, -, rfl, ordered⟩
      exact ⟨_, tracked.scan outside ordered⟩
  | enter t =>
      rcases tracked.enter taken with ⟨room', -, kept⟩
      exact ⟨room', kept⟩
  | post t => exact ⟨room, tracked.post taken⟩

/-- The floor that `main` starts is viewed as the room that it starts. -/
theorem tracked_launch (config : ConfigData n) (memory : Nat → Msg n) :
    Tracked config (.launch config memory) (launch config memory) := by
  have stored : ∀ place,
      (Floor.launch config memory).shared.stored place = 0 := by
    intro place
    have items : (Floor.launch config memory).shared.items place = 0 :=
      Finset.sum_const_zero
    rw [Shared.stored, items]
    cases place <;> rfl
  have rooms : ∀ place,
      (Floor.launch config memory).shared.rooms place = 0 :=
    fun _ => Finset.sum_const_zero
  have settled : ∀ place, (Floor.launch config memory).bufNow place =
      (Floor.launch config memory).shared.bufs place := by
    intro place
    rw [Views.bufNow_outside rfl, Shared.settled, stored]
    cases place <;> rfl
  constructor
  case balanced =>
    intro place
    constructor
    · cases place with
      | producer p => exact (config.producersInfo p).queueSize_pos
      | category category => exact config.coEditorQueueSize_pos
      | screen => exact config.coEditorQueueSize_pos
    · rw [stored]
      cases place <;> exact (Nat.zero_mod _).symm
    · rw [stored, rooms]
      cases place <;> exact Nat.zero_add _
  case agrees => exact fun t => Floor.agrees_outside rfl
  case views =>
    constructor
    · intro p
      rw [settled]
      rfl
    · intro category
      rw [settled]
      rfl
    · rw [settled]
      rfl
    all_goals rfl
  case ordered => exact ordered_launch config memory

/-- Every interleaving goes along with a room in order. -/
theorem tracked_of_reachable
    (reached : (floorSystem config).Reachable floor) :
    ∃ room, Tracked config floor room := by
  refine reached.invariant (fun floor => ∃ room, Tracked config floor room)
    ?_ ?_
  · rintro floor ⟨memory, rfl⟩
    exact ⟨_, tracked_launch config memory⟩
  · rintro floor tick next _ ⟨room, tracked⟩ taken
    exact tracked.step taken

end OSCourse.Newsroom
