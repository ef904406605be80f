import OSCourse.Library.TransitionSystem
import OSCourse.Newsroom.BoundedBuffer
import OSCourse.Newsroom.Message

/-!
# The newsroom

Embedding of the threads of `ex3/main.c`: `n` producers, the dispatcher, the
three co-editors and the screen manager, over the buffers between them.  Each
buffer operation is one step; the code up to the next buffer operation belongs
to it.  The random choice of a producer is part of the label of its step.  The
`usleep` calls and the flag `didSomething` that only decides about one of them
are left out.
-/

namespace OSCourse.Newsroom

open OSCourse.Library.TransitionSystem

/-! ## Data -/

/-- A message: its text, and who generated it in which category. -/
structure Msg (n : Nat) where
  text : Text
  origin : Option (Fin n × Category)
deriving DecidableEq, Repr

/-- The end mark. -/
def finishMsg {n : Nat} : Msg n :=
  ⟨finishText, none⟩

/-- `struct SizeAndMessages`, with an id of 32 bits. -/
structure SizeAndMessages where
  producerId : Int
  numOfMessages : Nat
  queueSize : Nat
  producerId_ge : -2 ^ 31 ≤ producerId
  producerId_lt : producerId < 2 ^ 31
  queueSize_pos : 0 < queueSize

/-- `struct ConfigData`. -/
structure ConfigData (n : Nat) where
  producersInfo : Fin n → SizeAndMessages
  coEditorQueueSize : Nat
  coEditorQueueSize_pos : 0 < coEditorQueueSize

/-- Where a producer stands: at its loop test, with a message to insert, or
out. -/
inductive ProducerPc (n : Nat) where
  | looping
  | inserting (message : Msg n)
  | exited
deriving DecidableEq, Repr

/-- A producer: its loop index and its counters. -/
structure Producer (n : Nat) where
  i : Nat
  counters : Category → Nat
  pc : ProducerPc n

/--
Where the dispatcher stands: at the done test of a buffer, at the poll of one,
with a message to insert, or at its end marks.
-/
inductive Dispatcher (n : Nat) where
  | checking (i : Nat) (allProducersDone : Bool)
  | polling (i : Fin n)
  | forwarding (category : Category) (message : Msg n) (i : Nat)
  | finishing (category : Category)
  | returned
deriving DecidableEq, Repr

inductive CoEditor (n : Nat) where
  | removing
  | inserting (message : Msg n)
  | exited
deriving DecidableEq, Repr

/-- The threads, their buffers, the output and what the producers generated. -/
structure Room (n : Nat) where
  producersBufs : Fin n → BoundedBuffer (Msg n)
  categoryBufs : Category → BoundedBuffer (Msg n)
  toScreenBuf : BoundedBuffer (Msg n)
  producers : Fin n → Producer n
  dispatcher : Dispatcher n
  coEditors : Category → CoEditor n
  doneCount : Nat
  output : List (Msg n)
  generated : Fin n → Category → List (Msg n)

/-- The steps of the threads. -/
inductive Label (n : Nat) where
  | generate (p : Fin n) (category : Category)
  | produce (p : Fin n)
  | dispatch
  | edit (category : Category)
  | print
deriving DecidableEq, Repr

section Steps

variable {n : Nat}

/-! ## Threads -/

/-- A new message of producer `p` in a category. -/
def newMessage (id : Int) (p : Fin n) (category : Category) (number : Nat) :
    Msg n :=
  ⟨messageText id category number, some (p, category)⟩

/-- `producer`: a message is formatted. -/
def generate (config : ConfigData n) (room : Room n) (p : Fin n)
    (category : Category) : Option (Room n) :=
  let thread := room.producers p
  if thread.pc = .looping ∧
      thread.i < (config.producersInfo p).numOfMessages then
    let message := newMessage (room.producersBufs p).id p category
      (thread.counters category)
    some
      { room with
        producers := Function.update room.producers p
          { thread with
            counters := Function.update thread.counters category
              (thread.counters category + 1)
            pc := .inserting message }
        generated := Function.update room.generated p
          (Function.update (room.generated p) category
            (room.generated p category ++ [message])) }
  else
    none

/-- `producer`: a message or, after the loop, the end mark is inserted. -/
def produce (config : ConfigData n) (room : Room n) (p : Fin n) :
    Option (Room n) :=
  let thread := room.producers p
  match thread.pc with
  | .inserting message =>
      ((room.producersBufs p).insertToBuffer message).map fun bb =>
        { room with
          producersBufs := Function.update room.producersBufs p bb
          producers := Function.update room.producers p
            { thread with i := thread.i + 1, pc := .looping } }
  | .looping =>
      if thread.i < (config.producersInfo p).numOfMessages then
        none
      else
        ((room.producersBufs p).insertToBuffer finishMsg).map fun bb =>
          { room with
            producersBufs := Function.update room.producersBufs p bb
            producers := Function.update room.producers p
              { thread with pc := .exited } }
  | .exited => none

/-- Where the dispatcher goes with a message it has polled. -/
def filed (message : Msg n) (i : Nat) : Dispatcher n :=
  match route message.text with
  | some category => .forwarding category message i
  | none => .checking i false

/-- The category whose end mark follows. -/
def Category.following : Category → Option Category
  | .sports => some .news
  | .news => some .weather
  | .weather => none

/-- `dispatcherFunc`. -/
def dispatch (room : Room n) : Option (Room n) :=
  match room.dispatcher with
  | .checking i allProducersDone =>
      if inside : i < n then
        let bb := room.producersBufs ⟨i, inside⟩
        if bb.isDone ∧ bb.isBufferEmpty then
          some { room with dispatcher := .checking (i + 1) allProducersDone }
        else
          some { room with dispatcher := .polling ⟨i, inside⟩ }
      else if allProducersDone then
        some { room with dispatcher := .finishing .sports }
      else
        some { room with dispatcher := .checking 0 true }
  | .polling i =>
      match (room.producersBufs i).tryRemoveFromBuffer with
      | (none, _) =>
          some { room with dispatcher := .checking (i + 1) false }
      | (some message, bb) =>
          if message.text = finishText then
            some
              { room with
                producersBufs :=
                  Function.update room.producersBufs i bb.setDone
                dispatcher := .checking (i + 1) false }
          else
            some
              { room with
                producersBufs := Function.update room.producersBufs i bb
                dispatcher := filed message (i + 1) }
  | .forwarding category message i =>
      ((room.categoryBufs category).insertToBuffer message).map fun bb =>
        { room with
          categoryBufs := Function.update room.categoryBufs category bb
          dispatcher := .checking i false }
  | .finishing category =>
      ((room.categoryBufs category).insertToBuffer finishMsg).map fun bb =>
        { room with
          categoryBufs := Function.update room.categoryBufs category bb
          dispatcher := category.following.elim .returned .finishing }
  | .returned => none

/-- `coEditor`. -/
def edit (room : Room n) (category : Category) : Option (Room n) :=
  match room.coEditors category with
  | .removing =>
      (room.categoryBufs category).removeFromBuffer.map fun (message, bb) =>
        { room with
          categoryBufs := Function.update room.categoryBufs category bb
          coEditors := Function.update room.coEditors category
            (.inserting message) }
  | .inserting message =>
      (room.toScreenBuf.insertToBuffer message).map fun bb =>
        { room with
          toScreenBuf := bb
          coEditors := Function.update room.coEditors category
            (if message.text = finishText then .exited else .removing) }
  | .exited => none

/-- `screenManagerFunc`, which leaves its loop at the third end mark. -/
def print (room : Room n) : Option (Room n) :=
  if room.doneCount = 3 then
    none
  else
    room.toScreenBuf.removeFromBuffer.map fun (message, bb) =>
      if message.text = finishText then
        { room with
          toScreenBuf := bb
          doneCount := room.doneCount + 1
          output :=
            if room.doneCount + 1 = 3 then room.output ++ [finishMsg]
            else room.output }
      else
        { room with
          toScreenBuf := bb
          output := room.output ++ [message] }

/-- One step of one thread. -/
def exec (config : ConfigData n) (room : Room n) :
    Label n → Option (Room n)
  | .generate p category => generate config room p category
  | .produce p => produce config room p
  | .dispatch => dispatch room
  | .edit category => edit room category
  | .print => print room

/-- `main` up to the join: the buffers, on any memory, and the threads. -/
def launch (config : ConfigData n) (memory : Nat → Msg n) : Room n where
  producersBufs p :=
    .initBuffer memory (config.producersInfo p).queueSize
      (config.producersInfo p).producerId
      (config.producersInfo p).queueSize_pos
  categoryBufs _ :=
    .initBuffer memory config.coEditorQueueSize (-1)
      config.coEditorQueueSize_pos
  toScreenBuf :=
    .initBuffer memory config.coEditorQueueSize (-1)
      config.coEditorQueueSize_pos
  producers _ := ⟨0, fun _ => 0, .looping⟩
  dispatcher := .checking 0 true
  coEditors _ := .removing
  doneCount := 0
  output := []
  generated _ _ := []

/-- The interleavings of the threads. -/
def newsroomSystem (config : ConfigData n) :
    System (Room n) (Label n) where
  start room := ∃ memory, room = launch config memory
  step room label next := exec config room label = some next

end Steps

end OSCourse.Newsroom
