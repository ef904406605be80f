import Mathlib.Tactic.DeriveFintype
import OSCourse.Newsroom.BufferSteps
import OSCourse.Newsroom.Pipeline

/-!
# The newsroom, step by step

The threads of `ex3/main.c` with each buffer operation as three steps: the wait,
the critical section and the post.  The code from the return of an operation up
to the next one belongs to its post.  A thread keeps its place in the code, so
what it asks of the buffers does not change before its post.
-/

namespace OSCourse.Newsroom

open OSCourse.Library.TransitionSystem

/-! ## Data -/

/-- The buffers. -/
inductive Place (n : Nat) where
  | producer (p : Fin n)
  | category (category : Category)
  | screen
deriving DecidableEq, Repr

/-- The threads that `main` creates. -/
inductive Thread (n : Nat) where
  | producer (p : Fin n)
  | dispatcher
  | coEditor (category : Category)
  | screenManager
deriving DecidableEq, Repr, Fintype

/-- The screen manager: its counter, and what it has printed. -/
structure Screen (n : Nat) where
  doneCount : Nat
  output : List (Msg n)

/-- The buffers and the threads, with what the producers generated. -/
structure Floor (n : Nat) where
  shared : Shared (Thread n) (Place n) (Msg n)
  producers : Fin n → Producer n
  dispatcher : Dispatcher n
  coEditors : Category → CoEditor n
  screen : Screen n
  generated : Fin n → Category → List (Msg n)

/-- The steps; `refuse` is the `sem_trywait` of the dispatcher when it fails. -/
inductive Tick (n : Nat) where
  | generate (p : Fin n) (category : Category)
  | check
  | wait (t : Thread n)
  | refuse
  | enter (t : Thread n)
  | post (t : Thread n)
deriving DecidableEq, Repr

section Ticks

variable {n : Nat}

/-! ## What a thread asks of the buffers -/

/-- The insertion that `producer` has come to. -/
def Producer.request (info : SizeAndMessages) (p : Fin n)
    (thread : Producer n) : Option (Request (Place n) (Msg n)) :=
  match thread.pc with
  | .inserting message => some (.insert (.producer p) message)
  | .looping =>
      if thread.i < info.numOfMessages then none
      else some (.insert (.producer p) finishMsg)
  | .exited => none

/-- The operation that `dispatcherFunc` has come to. -/
def Dispatcher.request : Dispatcher n → Option (Request (Place n) (Msg n))
  | .checking _ _ => none
  | .polling i => some (.remove (.producer i))
  | .forwarding category message _ =>
      some (.insert (.category category) message)
  | .finishing category => some (.insert (.category category) finishMsg)
  | .returned => none

/-- The operation that `coEditor` has come to. -/
def CoEditor.request (category : Category) :
    CoEditor n → Option (Request (Place n) (Msg n))
  | .removing => some (.remove (.category category))
  | .inserting message => some (.insert .screen message)
  | .exited => none

/-- The removal of `screenManagerFunc`, until it leaves its loop. -/
def Screen.request (screen : Screen n) : Option (Request (Place n) (Msg n)) :=
  if screen.doneCount = 3 then none else some (.remove .screen)

/-- The buffer operation that a thread has come to. -/
def Floor.request (config : ConfigData n) (floor : Floor n) :
    Thread n → Option (Request (Place n) (Msg n))
  | .producer p => (floor.producers p).request (config.producersInfo p) p
  | .dispatcher => floor.dispatcher.request
  | .coEditor category => (floor.coEditors category).request category
  | .screenManager => floor.screen.request

/-! ## What a thread does when an operation returns -/

/-- `producer` after an insertion. -/
def Producer.inserted (thread : Producer n) : Producer n :=
  match thread.pc with
  | .inserting _ => { thread with i := thread.i + 1, pc := .looping }
  | _ => { thread with pc := .exited }

/-- `dispatcherFunc` after an insertion. -/
def Dispatcher.inserted : Dispatcher n → Dispatcher n
  | .forwarding _ _ i => .checking i false
  | .finishing category => category.following.elim .returned .finishing
  | other => other

/-- `dispatcherFunc` after a removal. -/
def Dispatcher.removed (message : Msg n) : Dispatcher n → Dispatcher n
  | .polling i =>
      if message.text = finishText then .checking (i + 1) false
      else filed message (i + 1)
  | other => other

/-- `coEditor` after an insertion. -/
def CoEditor.inserted : CoEditor n → CoEditor n
  | .inserting message =>
      if message.text = finishText then .exited else .removing
  | other => other

/-- `screenManagerFunc` after a removal. -/
def Screen.removed (message : Msg n) (screen : Screen n) : Screen n :=
  if message.text = finishText then
    { doneCount := screen.doneCount + 1
      output :=
        if screen.doneCount + 1 = 3 then screen.output ++ [finishMsg]
        else screen.output }
  else
    { screen with output := screen.output ++ [message] }

/-- The floor after an insertion of a thread has returned. -/
def Floor.inserted (floor : Floor n) : Thread n → Floor n
  | .producer p =>
      { floor with
        producers := Function.update floor.producers p
          (floor.producers p).inserted }
  | .dispatcher => { floor with dispatcher := floor.dispatcher.inserted }
  | .coEditor category =>
      { floor with
        coEditors := Function.update floor.coEditors category
          (floor.coEditors category).inserted }
  | .screenManager => floor

/-- `producersBufs[i]->isDone = 1`. -/
def Floor.setDone (floor : Floor n) (place : Place n) : Floor n :=
  { floor with
    shared :=
      { floor.shared with
        bufs := Function.update floor.shared.bufs place
          { floor.shared.bufs place with isDone := true } } }

/-- The floor after a removal of a thread from `place` has returned. -/
def Floor.removed (floor : Floor n) (place : Place n) (message : Msg n) :
    Thread n → Floor n
  | .producer _ => floor
  | .dispatcher =>
      let floor := { floor with
        dispatcher := floor.dispatcher.removed message }
      if message.text = finishText then floor.setDone place else floor
  | .coEditor category =>
      { floor with
        coEditors := Function.update floor.coEditors category
          (.inserting message) }
  | .screenManager => { floor with screen := floor.screen.removed message }

/-! ## Steps -/

/-- `producer`: a message is formatted. -/
def Floor.generate (config : ConfigData n) (floor : Floor n) (p : Fin n)
    (category : Category) : Option (Floor n) :=
  let thread := floor.producers p
  if thread.pc = .looping ∧
      thread.i < (config.producersInfo p).numOfMessages ∧
        floor.shared.stage (.producer p) = .outside then
    let message := newMessage (floor.shared.bufs (.producer p)).id p category
      (thread.counters category)
    some
      { floor with
        producers := Function.update floor.producers p
          { thread with
            counters := Function.update thread.counters category
              (thread.counters category + 1)
            pc := .inserting message }
        generated := Function.update floor.generated p
          (Function.update (floor.generated p) category
            (floor.generated p category ++ [message])) }
  else
    none

/-- `dispatcherFunc`: the done test of a buffer, or the end of a scan. -/
def Floor.check (floor : Floor n) : Option (Floor n) :=
  match floor.shared.stage .dispatcher, floor.dispatcher with
  | .outside, .checking i allProducersDone =>
      if inside : i < n then
        let bb := floor.shared.bufs (.producer ⟨i, inside⟩)
        if bb.isDone ∧ bb.isBufferEmpty then
          some { floor with dispatcher := .checking (i + 1) allProducersDone }
        else
          some { floor with dispatcher := .polling ⟨i, inside⟩ }
      else if allProducersDone then
        some { floor with dispatcher := .finishing .sports }
      else
        some { floor with dispatcher := .checking 0 true }
  | _, _ => none

/-- The wait of the operation that a thread has come to. -/
def Floor.wait (config : ConfigData n) (floor : Floor n) (t : Thread n) :
    Option (Floor n) :=
  match floor.shared.stage t, floor.request config t with
  | .outside, some request =>
      (floor.shared.wait t request).map fun shared =>
        { floor with shared := shared }
  | _, _ => none

/-- `tryRemoveFromBuffer` returns NULL. -/
def Floor.refuse (floor : Floor n) : Option (Floor n) :=
  match floor.shared.stage .dispatcher, floor.dispatcher with
  | .outside, .polling i =>
      if (floor.shared.bufs (.producer i)).readSemaphore = 0 then
        some { floor with dispatcher := .checking (i + 1) false }
      else
        none
  | _, _ => none

/-- The critical section of a thread that is past its wait. -/
def Floor.enter (floor : Floor n) (t : Thread n) : Option (Floor n) :=
  match floor.shared.stage t with
  | .storing place message =>
      some { floor with shared := floor.shared.store t place message }
  | .taking place =>
      some { floor with shared := (floor.shared.take t place).2 }
  | _ => none

/-- The post of a thread, and its code up to the next operation. -/
def Floor.post (floor : Floor n) (t : Thread n) : Option (Floor n) :=
  (floor.shared.post t).map fun shared =>
    match floor.shared.stage t with
    | .freeing place message =>
        { floor with shared := shared }.removed place message t
    | _ => { floor with shared := shared }.inserted t

/-- One step of one thread. -/
def Floor.exec (config : ConfigData n) (floor : Floor n) :
    Tick n → Option (Floor n)
  | .generate p category => floor.generate config p category
  | .check => floor.check
  | .wait t => floor.wait config t
  | .refuse => floor.refuse
  | .enter t => floor.enter t
  | .post t => floor.post t

/-- `main` up to the join. -/
def Floor.launch (config : ConfigData n) (memory : Nat → Msg n) :
    Floor n where
  shared :=
    { bufs := fun
        | .producer p => .initBuffer memory (config.producersInfo p).queueSize
            (config.producersInfo p).producerId
        | .category _ => .initBuffer memory config.coEditorQueueSize (-1)
        | .screen => .initBuffer memory config.coEditorQueueSize (-1)
      stage := fun _ => .outside }
  producers _ := ⟨0, fun _ => 0, .looping⟩
  dispatcher := .checking 0 true
  coEditors _ := .removing
  screen := ⟨0, []⟩
  generated _ _ := []

/-- The interleavings of the steps of all threads. -/
def floorSystem (config : ConfigData n) : System (Floor n) (Tick n) where
  start floor := ∃ memory, floor = .launch config memory
  step floor tick next := floor.exec config tick = some next

end Ticks

end OSCourse.Newsroom
