import Mathlib.Data.List.Basic
import Mathlib.Logic.Function.Basic
import OSCourse.Library.TransitionSystem

/-!
# A parent and two children that append to one file

Embedding of `ex2/part1.c`.  The parent creates `output.txt`, forks two
children, waits for both and appends its own message; each child opens the file
with `O_APPEND` and appends its message `count` times.  Every system call is one
step, in any interleaving.  The second child sleeps first, which delays it but
orders nothing: any step of another process may come before the sleep ends.

A call may fail where the source has a branch for it, and a `write` may store
only the beginning of the message.  The texts printed on the standard output and
the process ids are left out.
-/

namespace OSCourse.ForkWriters

open OSCourse.Library.TransitionSystem

/-! ## Data -/

/-- The children, in the order of the forks. -/
inductive Child where
  | first
  | second
deriving DecidableEq, Repr

/-- The processes that write to the file. -/
inductive Writer where
  | parent
  | child (child : Child)
deriving DecidableEq, Repr

/-- How a process ends: with status 0 or with status 1. -/
inductive Exit where
  | success
  | failure
deriving DecidableEq, Repr

/-- The arguments of the program; `main` requires the count to be positive. -/
structure Arguments where
  message : Writer → List UInt8
  count : Nat
  positive : 0 < count

/-- Where a process is; a child is `absent` before the `fork` and `reaped`
after the `wait` of the parent. -/
inductive Phase where
  | absent
  | creating
  | forking (child : Child)
  | waiting (left : Nat)
  | sleeping
  | opening
  | writing (written : Nat)
  | exited (how : Exit)
  | reaped (how : Exit)
deriving DecidableEq, Repr

/-- The processes and the content of `output.txt`. -/
structure State where
  phase : Writer → Phase
  output : List UInt8

/-! ## Steps -/

/-- The system calls, with their outcomes. -/
inductive Call where
  | create
  | createFails
  | fork
  | forkFails
  | wake (writer : Writer)
  | openFile (writer : Writer)
  | openFails (writer : Writer)
  | write (writer : Writer) (stored : Nat)
  | writeFails (writer : Writer)
  | exit (writer : Writer)
  | wait (child : Child)
  | waitFails
deriving DecidableEq, Repr

/-- Move a process. -/
def State.setPhase (state : State) (writer : Writer) (phase : Phase) : State :=
  { state with phase := Function.update state.phase writer phase }

/-- Where `child_write` starts: the second child sleeps. -/
def Child.start : Child → Phase
  | .first => .opening
  | .second => .sleeping

/-- What the parent does after the fork of a child. -/
def Child.next : Child → Phase
  | .first => .forking .second
  | .second => .waiting 2

/-- What the parent does after a `wait`. -/
def nextWait (left : Nat) : Phase :=
  if left = 1 then .opening else .waiting (left - 1)

/-- Where the loop of writes goes on after a `write` that stored `stored` of
`length` bytes. -/
def afterWrite (length written stored : Nat) : Phase :=
  if stored = length then .writing (written + 1) else .exited .failure

/-- The steps of `main` that are not those of a writer. -/
def mainStep (state : State) : Call → Option State
  | .create =>
      match state.phase .parent with
      | .creating =>
          some { state.setPhase .parent (.forking .first) with output := [] }
      | _ => none
  | .createFails =>
      match state.phase .parent with
      | .creating => some (state.setPhase .parent (.exited .failure))
      | _ => none
  | .fork =>
      match state.phase .parent with
      | .forking child =>
          some
            ((state.setPhase (.child child) child.start).setPhase .parent
              child.next)
      | _ => none
  | .forkFails =>
      match state.phase .parent with
      | .forking _ => some (state.setPhase .parent (.exited .failure))
      | _ => none
  | .wait child =>
      match state.phase .parent, state.phase (.child child) with
      | .waiting left, .exited how =>
          some
            ((state.setPhase (.child child) (.reaped how)).setPhase .parent
              (nextWait left))
      | _, _ => none
  | .waitFails =>
      match state.phase .parent with
      | .waiting _ => some (state.setPhase .parent (.exited .failure))
      | _ => none
  | _ => none

/-- The steps of `child_write`, and of the end of `main`, which opens the file
and writes in the same way. -/
def writerStep (arguments : Arguments) (state : State) : Call → Option State
  | .wake writer =>
      match state.phase writer with
      | .sleeping => some (state.setPhase writer .opening)
      | _ => none
  | .openFile writer =>
      match state.phase writer with
      | .opening => some (state.setPhase writer (.writing 0))
      | _ => none
  | .openFails writer =>
      match state.phase writer with
      | .opening => some (state.setPhase writer (.exited .failure))
      | _ => none
  | .write writer stored =>
      match state.phase writer with
      | .writing written =>
          if written < arguments.count ∧
              stored ≤ (arguments.message writer).length then
            some
              { state.setPhase writer
                  (afterWrite (arguments.message writer).length written
                    stored)
                with
                output :=
                  state.output ++ (arguments.message writer).take stored }
          else
            none
      | _ => none
  | .writeFails writer =>
      match state.phase writer with
      | .writing written =>
          if written < arguments.count then
            some (state.setPhase writer (.exited .failure))
          else
            none
      | _ => none
  | .exit writer =>
      match state.phase writer with
      | .writing written =>
          if arguments.count ≤ written then
            some (state.setPhase writer (.exited .success))
          else
            none
      | _ => none
  | _ => none

/-- One step of one process. -/
def step (arguments : Arguments) (state : State) (call : Call) :
    Option State :=
  (mainStep state call).orElse fun _ => writerStep arguments state call

/-- The state when `main` starts, with the content that the file has, if it
exists. -/
def started (old : List UInt8) : State where
  phase
    | .parent => .creating
    | .child _ => .absent
  output := old

/-- The runs of the program. -/
def forkWriters (arguments : Arguments) (old : List UInt8) :
    System State Call where
  start state := state = started old
  step state call next := step arguments state call = some next

/-- What a step can be. -/
inductive Taken (arguments : Arguments) (state : State) : State → Prop where
  | create (parent : state.phase .parent = .creating) :
      Taken arguments state
        { state.setPhase .parent (.forking .first) with output := [] }
  | createFails (parent : state.phase .parent = .creating) :
      Taken arguments state (state.setPhase .parent (.exited .failure))
  | fork (child : Child) (parent : state.phase .parent = .forking child) :
      Taken arguments state
        ((state.setPhase (.child child) child.start).setPhase .parent
          child.next)
  | forkFails (child : Child)
      (parent : state.phase .parent = .forking child) :
      Taken arguments state (state.setPhase .parent (.exited .failure))
  | wait (child : Child) (left : Nat) (how : Exit)
      (parent : state.phase .parent = .waiting left)
      (ended : state.phase (.child child) = .exited how) :
      Taken arguments state
        ((state.setPhase (.child child) (.reaped how)).setPhase .parent
          (nextWait left))
  | waitFails (left : Nat) (parent : state.phase .parent = .waiting left) :
      Taken arguments state (state.setPhase .parent (.exited .failure))
  | wake (writer : Writer) (asleep : state.phase writer = .sleeping) :
      Taken arguments state (state.setPhase writer .opening)
  | openFile (writer : Writer) (opening : state.phase writer = .opening) :
      Taken arguments state (state.setPhase writer (.writing 0))
  | openFails (writer : Writer) (opening : state.phase writer = .opening) :
      Taken arguments state (state.setPhase writer (.exited .failure))
  | write (writer : Writer) (written stored : Nat)
      (phase : state.phase writer = .writing written)
      (more : written < arguments.count)
      (bound : stored ≤ (arguments.message writer).length) :
      Taken arguments state
        { state.setPhase writer
            (afterWrite (arguments.message writer).length written stored) with
          output := state.output ++ (arguments.message writer).take stored }
  | writeFails (writer : Writer) (written : Nat)
      (phase : state.phase writer = .writing written)
      (more : written < arguments.count) :
      Taken arguments state (state.setPhase writer (.exited .failure))
  | exit (writer : Writer) (written : Nat)
      (phase : state.phase writer = .writing written)
      (done : arguments.count ≤ written) :
      Taken arguments state (state.setPhase writer (.exited .success))

theorem taken_of_mainStep
    {arguments : Arguments} {state next : State} {call : Call}
    (ran : mainStep state call = some next) :
    Taken arguments state next := by
  unfold mainStep at ran
  split at ran
  · split at ran <;> cases ran
    exact .create ‹_›
  · split at ran <;> cases ran
    exact .createFails ‹_›
  · split at ran <;> cases ran
    exact .fork _ ‹_›
  · split at ran <;> cases ran
    exact .forkFails _ ‹_›
  · split at ran <;> cases ran
    exact .wait _ _ _ ‹_› ‹_›
  · split at ran <;> cases ran
    exact .waitFails _ ‹_›
  · cases ran

theorem taken_of_writerStep
    {arguments : Arguments} {state next : State} {call : Call}
    (ran : writerStep arguments state call = some next) :
    Taken arguments state next := by
  unfold writerStep at ran
  split at ran
  · split at ran <;> cases ran
    exact .wake _ ‹_›
  · split at ran <;> cases ran
    exact .openFile _ ‹_›
  · split at ran <;> cases ran
    exact .openFails _ ‹_›
  · split at ran
    · split at ran <;> cases ran
      rename_i guard
      exact .write _ _ _ ‹_› guard.1 guard.2
    · cases ran
  · split at ran
    · split at ran <;> cases ran
      exact .writeFails _ _ ‹_› ‹_›
    · cases ran
  · split at ran
    · split at ran <;> cases ran
      exact .exit _ _ ‹_› ‹_›
    · cases ran
  · cases ran

theorem taken_of_step
    {arguments : Arguments} {state next : State} {call : Call}
    (ran : step arguments state call = some next) :
    Taken arguments state next := by
  unfold step at ran
  cases main : mainStep state call with
  | some result =>
      rw [main] at ran
      cases ran
      exact taken_of_mainStep main
  | none =>
      rw [main] at ran
      exact taken_of_writerStep ran

end OSCourse.ForkWriters
