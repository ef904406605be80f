import OSCourse.Newsroom.CriticalSections

/-!
# Teardown

`main` joins the screen manager only and then destroys every buffer.  A message
in a buffer whose post is still to come is counted as stored there, and nothing
is stored anywhere once the screen manager has taken the third end mark.  So
every other thread has finished its last post by then.
-/

namespace OSCourse.Newsroom

open OSCourse.Library.TransitionSystem

variable {n : Nat} {config : ConfigData n} {floor next : Floor n}
variable {room : Room n}

/-- A thread has left its code, and every buffer operation. -/
def Floor.Over (floor : Floor n) (t : Thread n) : Prop :=
  floor.shared.stage t = .outside ∧
    match t with
    | .producer p => (floor.producers p).pc = .exited
    | .dispatcher => floor.dispatcher = .returned
    | .coEditor category => floor.coEditors category = .exited
    | .screenManager => floor.screen.doneCount = 3

/-- The buffers may be destroyed: they are empty, and no thread has a step
left. -/
structure TornDown (config : ConfigData n) (floor : Floor n) : Prop where
  read : ∀ place, (floor.shared.bufs place).readSemaphore = 0
  write : ∀ place, (floor.shared.bufs place).writeSemaphore =
    (floor.shared.bufs place).size
  empty : ∀ place, (floor.shared.bufs place).isBufferEmpty = true
  ended : ∀ t, floor.Over t
  still : ∀ tick, floor.exec config tick = none

/-! ## Nothing is stored -/

theorem Fields.contents_markDone {Msg : Type} (bb : Fields Msg)
    (seen : Bool) :
    (bb.markDone seen).contents = bb.contents := by
  cases seen <;> rfl

/-- The messages stored in a place are those in the buffer of the room. -/
theorem Views.stored_eq_zero (views : Views floor room) (place : Place n)
    (empty : (room.bufAt place).contents = []) :
    floor.shared.stored place = 0 := by
  have contents : (floor.shared.settled place).contents = [] := by
    rw [← Fields.contents_markDone _ (floor.marking place)]
    show (floor.bufNow place).contents = []
    rw [← views.bufAt]
    exact empty
  exact Fields.contents_eq_nil_iff.mp contents

theorem Drained.bufAt (drained : Drained room) (place : Place n) :
    (room.bufAt place).contents = [] := by
  cases place with
  | producer p => exact drained.buffers p
  | category category => exact drained.categories category
  | screen => exact drained.toScreen

/-- No thread accounts for a message where none is stored. -/
theorem Shared.stage_of_stored_eq_zero
    {shared : Shared (Thread n) (Place n) (Msg n)}
    (none : ∀ place, shared.stored place = 0) (t : Thread n) (place : Place n) :
    shared.stage t ≠ .announcing place ∧ shared.stage t ≠ .taking place := by
  have items := shared.items_stage_le place t
  have stored := none place
  unfold Shared.stored at stored
  constructor
  · intro announcing
    simp only [announcing, Stage.items, if_true] at items
    omega
  · intro taking
    simp only [taking, Stage.items, if_true] at items
    omega

/-! ## The threads are over -/

/-- A thread that asks for nothing is outside. -/
theorem Floor.Agrees.outside {t : Thread n} (agrees : floor.Agrees config t)
    (idle : floor.request config t = none) :
    floor.shared.stage t = .outside := by
  unfold Floor.Agrees at agrees
  cases stage : floor.shared.stage t with
  | outside => rfl
  | storing place message =>
      simp only [stage, idle] at agrees
      cases agrees
  | announcing place =>
      simp only [stage, idle] at agrees
      rcases agrees with ⟨_, asked⟩
      cases asked
  | taking place =>
      simp only [stage, idle] at agrees
      cases agrees
  | freeing place message =>
      simp only [stage, idle] at agrees
      cases agrees

/-- A thread that stores nothing and takes nothing has settled its code, or is
about to free a cell. -/
theorem Stage.settle_of_unstored {α : Type}
    {stage : Stage (Place n) (Msg n)}
    (unstored : ∀ place, stage ≠ .announcing place ∧ stage ≠ .taking place)
    (inserted : α → α) (removed : Place n → Msg n → α → α) (state : α) :
    (stage.settle inserted removed state = state) ∨
      ∃ place message, stage = .freeing place message := by
  cases stage with
  | outside => exact .inl rfl
  | storing place message => exact .inl rfl
  | announcing place => exact absurd rfl (unstored place).1
  | taking place => exact .inl rfl
  | freeing place message => exact .inr ⟨place, message, rfl⟩

section Over

variable (tracked : Tracked config floor room) (drained : Drained room)
include tracked drained

theorem Tracked.unstored (t : Thread n) (place : Place n) :
    floor.shared.stage t ≠ .announcing place ∧
      floor.shared.stage t ≠ .taking place :=
  Shared.stage_of_stored_eq_zero
    (fun place => tracked.views.stored_eq_zero place (drained.bufAt place)) t
    place

theorem Tracked.producer_over (p : Fin n) : floor.Over (.producer p) := by
  have now : floor.producerNow p = room.producers p := by
    rw [tracked.views.producers]
  have agrees := tracked.agrees (.producer p)
  have exited : (floor.producers p).pc = .exited := by
    rcases Stage.settle_of_unstored (tracked.unstored drained (.producer p))
      Producer.inserted (fun _ _ thread => thread) (floor.producers p) with
      settled | ⟨place, message, freeing⟩
    · rw [← settled]
      show (floor.producerNow p).pc = .exited
      rw [now]
      exact drained.producers p
    · unfold Floor.Agrees at agrees
      rw [freeing] at agrees
      rcases Producer.request_eq_some agrees with ⟨_, _, ⟨⟩⟩ | ⟨_, _, ⟨⟩⟩
  refine ⟨agrees.outside ?_, exited⟩
  simp only [Floor.request, Producer.request, exited]

theorem Tracked.dispatcher_over : floor.Over .dispatcher := by
  have now : floor.dispatcherNow = .returned := by
    rw [← tracked.views.dispatcher]
    exact drained.dispatcher
  have agrees := tracked.agrees .dispatcher
  have returned : floor.dispatcher = .returned := by
    rcases Stage.settle_of_unstored (tracked.unstored drained .dispatcher)
      Dispatcher.inserted (fun _ => Dispatcher.removed) floor.dispatcher with
      settled | ⟨place, message, freeing⟩
    · rw [← settled]
      exact now
    · unfold Floor.Agrees at agrees
      unfold Floor.dispatcherNow at now
      simp only [freeing, Floor.request, Stage.settle] at agrees now
      cases code : floor.dispatcher with
      | polling i =>
          simp only [code, Dispatcher.removed, filed] at now
          split at now
          · cases now
          · split at now
            · cases now
            · cases now
      | returned => rfl
      | checking i all =>
          rw [code] at agrees
          cases agrees
      | forwarding category held i =>
          rw [code] at agrees
          cases agrees
      | finishing category =>
          rw [code] at agrees
          cases agrees
  refine ⟨agrees.outside ?_, returned⟩
  simp only [Floor.request, returned, Dispatcher.request]

theorem Tracked.coEditor_over (category : Category) :
    floor.Over (.coEditor category) := by
  have now : floor.coEditorNow category = .exited := by
    rw [← tracked.views.coEditors]
    exact drained.coEditors category
  have exited : floor.coEditors category = .exited := by
    rcases Stage.settle_of_unstored
      (tracked.unstored drained (.coEditor category)) CoEditor.inserted
      (fun _ message _ => .inserting message) (floor.coEditors category) with
      settled | ⟨place, message, freeing⟩
    · rw [← settled]
      exact now
    · unfold Floor.coEditorNow at now
      rw [freeing] at now
      cases now
  refine ⟨(tracked.agrees (.coEditor category)).outside ?_, exited⟩
  simp only [Floor.request, exited, CoEditor.request]

end Over

theorem Tracked.screenManager_over (tracked : Tracked config floor room)
    (third : floor.screen.doneCount = 3) : floor.Over .screenManager := by
  refine ⟨(tracked.agrees .screenManager).outside ?_, third⟩
  simp only [Floor.request, Screen.request, if_pos third]

/-- A floor whose threads are over takes no step. -/
theorem Floor.exec_eq_none_of_over (ended : ∀ t, floor.Over t)
    (tick : Tick n) : floor.exec config tick = none := by
  cases tick with
  | generate p category =>
      have exited := (ended (.producer p)).2
      simp only at exited
      simp [Floor.exec, Floor.generate, exited]
  | check =>
      have returned := (ended .dispatcher).2
      simp only at returned
      simp [Floor.exec, Floor.check, returned, (ended .dispatcher).1]
  | wait t =>
      have idle : floor.request config t = none := by
        have left := (ended t).2
        cases t with
        | producer p =>
            simp only at left
            simp [Floor.request, Producer.request, left]
        | dispatcher =>
            simp only at left
            simp [Floor.request, Dispatcher.request, left]
        | coEditor category =>
            simp only at left
            simp [Floor.request, CoEditor.request, left]
        | screenManager =>
            simp only at left
            simp [Floor.request, Screen.request, left]
      simp [Floor.exec, Floor.wait, idle]
  | refuse =>
      have returned := (ended .dispatcher).2
      simp only at returned
      simp [Floor.exec, Floor.refuse, returned, (ended .dispatcher).1]
  | enter t => simp [Floor.exec, Floor.enter, (ended t).1]
  | post t => simp [Floor.exec, Floor.post, Shared.post, (ended t).1]

/-! ## The law -/

/--
In every interleaving, once the screen manager has taken its third end mark and
left its loop, every buffer is empty and no thread will touch one again.
-/
theorem teardown_safe (config : ConfigData n) (floor : Floor n)
    (reached : (floorSystem config).Reachable floor)
    (left : floor.screen.doneCount = 3) : TornDown config floor := by
  rcases tracked_of_reachable reached with ⟨room, tracked⟩
  have screen := tracked.screenManager_over left
  have third : room.doneCount = 3 := by
    rw [tracked.views.doneCount, Floor.screenNow, screen.1]
    exact left
  have drained := tracked.ordered.drained third
  have ended : ∀ t, floor.Over t := by
    intro t
    cases t with
    | producer p => exact tracked.producer_over drained p
    | dispatcher => exact tracked.dispatcher_over drained
    | coEditor category => exact tracked.coEditor_over drained category
    | screenManager => exact screen
  have stored : ∀ place, floor.shared.stored place = 0 :=
    fun place => tracked.views.stored_eq_zero place (drained.bufAt place)
  have rooms : ∀ place, floor.shared.rooms place = 0 := by
    intro place
    refine Finset.sum_eq_zero fun t _ => ?_
    rw [(ended t).1]
    rfl
  constructor
  case read =>
    intro place
    have none := stored place
    unfold Shared.stored at none
    omega
  case write =>
    intro place
    have semaphores := (tracked.balanced place).semaphores
    rw [stored, rooms] at semaphores
    omega
  case empty =>
    intro place
    have balanced := tracked.balanced place
    have tail := balanced.tail
    rw [stored, Nat.add_zero, Nat.mod_eq_of_lt balanced.head] at tail
    simp [Fields.isBufferEmpty, tail]
  case ended => exact ended
  case still => exact Floor.exec_eq_none_of_over ended

/-! ## One message -/

/-- The three steps of an operation. -/
def operation (t : Thread 1) : List (Tick 1) :=
  [.wait t, .enter t, .post t]

/-- One message and the end marks go all the way. -/
def oneMessageTicks : List (Tick 1) :=
  [.generate onlyProducer .news] ++ operation (.producer onlyProducer) ++
    [.check] ++ operation .dispatcher ++ operation .dispatcher ++
    operation (.producer onlyProducer) ++ [.check, .check] ++
    operation .dispatcher ++ [.check, .check, .check] ++
    operation .dispatcher ++ operation (.coEditor .news) ++
    operation .dispatcher ++ operation .dispatcher ++
    operation (.coEditor .news) ++ operation .screenManager ++
    [.news, .sports, .weather].flatMap fun category =>
      operation (.coEditor category) ++ operation (.coEditor category) ++
        operation .screenManager

def oneMessageFloor : Floor 1 :=
  (oneMessageTicks.foldlM (Floor.exec oneMessage)
    (.launch oneMessage fun _ => finishMsg)).get (by decide +kernel)

theorem teardown_safe_oneMessage : TornDown oneMessage oneMessageFloor :=
  teardown_safe oneMessage oneMessageFloor
    (System.Reachable.of_run (fun _ _ _ taken => taken) (.start ⟨_, rfl⟩)
      (Option.some_get _).symm)
    (by decide +kernel)

end OSCourse.Newsroom
