import Mathlib.Data.List.FinRange
import Mathlib.Data.Fintype.Basic
import Mathlib.Logic.Function.Basic
import OSCourse.Library.Blocks
import OSCourse.Library.TransitionSystem

/-!
# Writers that share a lock file

Embedding of `ex2/part2.c`: the parent removes the lock file, forks one child
for each message and waits for them; each child creates the lock file with
`O_CREAT | O_EXCL`, prints its message `count` times, removes the lock file and
exits.  Every system call is one step, in any interleaving; delays and the seed
of `rand` are left out.  The file may be left over from an earlier run.

Standard output is a terminal, where every `printf` is written out at once, or
it is fully buffered: `printf` stores into a buffer of the process.  A full
buffer is written out when another byte comes, and what is in the buffer once
more by `exit`; a buffer that is exactly full stays.  A byte on the output
carries the child that wrote it.
-/

namespace OSCourse.LockFile

open OSCourse.Library.Blocks
open OSCourse.Library.TransitionSystem

/-! ## Data -/

/-- What standard output is. -/
inductive Stdout where
  | terminal
  | buffered (size : Nat) (positive : 0 < size)

/-- The arguments of the program: a message for each child and the count, which
`main` requires to be positive. -/
structure Arguments (n : Nat) where
  message : Fin n → List UInt8
  count : Nat
  positive : 0 < count

/-- Where the parent is. -/
inductive Parent where
  | unlinking
  | forking (child : Nat)
  | waiting (child : Nat)
  | cleaning
  | finished (status : Nat)
deriving DecidableEq, Repr

/-- The calls of `exit` in a child: at the end of `child_process` with status 0,
and with status 1 after an error in `acquire_lock` or in `release_lock`. -/
inductive Exit where
  | success
  | acquireError
  | releaseError
deriving DecidableEq, Repr

/-- Where a child is; `absent` before the `fork` and `reaped` after the
parent's `wait`. -/
inductive Phase where
  | absent
  | acquiring
  | writing (printed : Nat)
  | exiting (how : Exit)
  | exited (how : Exit)
  | reaped (how : Exit)
deriving DecidableEq, Repr

/-- There is a process to wait for. -/
def Phase.isProcess : Phase → Bool
  | .absent => false
  | .reaped _ => false
  | _ => true

/-- A child, with what `printf` has stored and not yet written out. -/
structure Child where
  phase : Phase
  buffer : List UInt8
deriving DecidableEq, Repr

/-- The processes, the lock file and the output. -/
structure State (n : Nat) where
  parent : Parent
  child : Fin n → Child
  lockFile : Bool
  output : List (Fin n × UInt8)

variable {n : Nat}

/-! ## Output -/

/-- What one `printf` of the child prints. -/
def Arguments.line (arguments : Arguments n) (i : Fin n) : List UInt8 :=
  arguments.message i ++ [10]

/-- What `printed` calls of `printf` print. -/
def Arguments.lines (arguments : Arguments n) (i : Fin n) (printed : Nat) :
    List UInt8 :=
  (List.replicate printed (arguments.line i)).flatten

/-- What `write_message` prints for the child. -/
def Arguments.block (arguments : Arguments n) (i : Fin n) : List UInt8 :=
  arguments.lines i arguments.count

/-- Whether a byte has come for which the full buffer has no room. -/
def Stdout.overflows : Stdout → List UInt8 → Bool
  | .terminal, _ => false
  | .buffered size _, buffer => decide (size < buffer.length)

/-! ## Steps -/

/-- A system call of a process, or a `printf`.  The calls that fail are those
for which the source has a branch. -/
inductive Call (n : Nat) where
  | unlink
  | fork
  | forkFails
  | wait (i : Fin n)
  | waitFails
  | openLock (i : Fin n)
  | openFails (i : Fin n)
  | printf (i : Fin n)
  | writeOut (i : Fin n)
  | unlinkLock (i : Fin n)
  | exit (i : Fin n)
deriving DecidableEq, Repr

/-- The loop of waits. -/
def nextWait (n child : Nat) : Parent :=
  if child < n then .waiting child else .cleaning

/-- The loop of forks. -/
def nextFork (n child : Nat) : Parent :=
  if child < n then .forking child else nextWait n 0

/-- Write the state of a child. -/
def State.setChild (state : State n) (i : Fin n) (child : Child) : State n :=
  { state with child := Function.update state.child i child }

/-- The steps of `main`. -/
def parentStep (state : State n) : Call n → Option (State n)
  | .unlink =>
      match state.parent with
      | .unlinking =>
          some { state with lockFile := false, parent := nextFork n 0 }
      | .cleaning =>
          some { state with lockFile := false, parent := .finished 0 }
      | _ => none
  | .fork =>
      match state.parent with
      | .forking child =>
          if fork : child < n then
            some
              { state.setChild ⟨child, fork⟩ ⟨.acquiring, []⟩ with
                parent := nextFork n (child + 1) }
          else
            none
      | _ => none
  | .forkFails =>
      match state.parent with
      | .forking _ => some { state with parent := .finished 1 }
      | _ => none
  | .wait i =>
      match state.parent, (state.child i).phase with
      | .waiting child, .exited how =>
          some
            { state.setChild i { state.child i with phase := .reaped how }
              with parent := nextWait n (child + 1) }
      | _, _ => none
  | .waitFails =>
      match state.parent with
      | .waiting child =>
          if ∀ i, (state.child i).phase.isProcess = false then
            some { state with parent := nextWait n (child + 1) }
          else
            none
      | _ => none
  | _ => none

/-- The call of `open` in `acquire_lock`. -/
def openLock (state : State n) (i : Fin n) : State n :=
  if state.lockFile then
    state
  else
    { state.setChild i { state.child i with phase := .writing 0 } with
      lockFile := true }

/-- One round of `write_message`. -/
def printf (arguments : Arguments n) (stdout : Stdout) (state : State n)
    (i : Fin n) (printed : Nat) : State n :=
  match stdout with
  | .terminal =>
      { state.setChild i { state.child i with phase := .writing (printed + 1) }
        with output := state.output ++ signed i (arguments.line i) }
  | .buffered _ _ =>
      state.setChild i
        ⟨.writing (printed + 1), (state.child i).buffer ++ arguments.line i⟩

/-- The full buffer is written out, and the bytes that came after it stay. -/
def writeOut (stdout : Stdout) (state : State n) (i : Fin n) : State n :=
  match stdout with
  | .terminal => state
  | .buffered size _ =>
      { state.setChild i
          { state.child i with buffer := (state.child i).buffer.drop size }
        with
        output :=
          state.output ++ signed i ((state.child i).buffer.take size) }

/-- `release_lock`. -/
def unlinkLock (state : State n) (i : Fin n) : State n :=
  if state.lockFile then
    { state.setChild i { state.child i with phase := .exiting .success } with
      lockFile := false }
  else
    state.setChild i { state.child i with phase := .exiting .releaseError }

/-- `exit` writes out what is in the buffer. -/
def exit (state : State n) (i : Fin n) (how : Exit) : State n :=
  { state.setChild i ⟨.exited how, []⟩ with
    output := state.output ++ signed i (state.child i).buffer }

/-- The steps of `child_process`.  A `printf` has returned when its bytes are
in the buffer or written out. -/
def childStep (arguments : Arguments n) (stdout : Stdout) (state : State n) :
    Call n → Option (State n)
  | .openLock i =>
      match (state.child i).phase with
      | .acquiring => some (openLock state i)
      | _ => none
  | .openFails i =>
      match (state.child i).phase with
      | .acquiring =>
          some
            (state.setChild i
              { state.child i with phase := .exiting .acquireError })
      | _ => none
  | .printf i =>
      match (state.child i).phase with
      | .writing printed =>
          if printed < arguments.count ∧
              stdout.overflows (state.child i).buffer = false then
            some (printf arguments stdout state i printed)
          else
            none
      | _ => none
  | .writeOut i =>
      match (state.child i).phase with
      | .writing _ =>
          if stdout.overflows (state.child i).buffer = true then
            some (writeOut stdout state i)
          else
            none
      | _ => none
  | .unlinkLock i =>
      match (state.child i).phase with
      | .writing printed =>
          if arguments.count ≤ printed ∧
              stdout.overflows (state.child i).buffer = false then
            some (unlinkLock state i)
          else
            none
      | _ => none
  | .exit i =>
      match (state.child i).phase with
      | .exiting how => some (exit state i how)
      | _ => none
  | _ => none

/-- One step of one process. -/
def step (arguments : Arguments n) (stdout : Stdout) (state : State n)
    (call : Call n) : Option (State n) :=
  (parentStep state call).orElse fun _ =>
    childStep arguments stdout state call

/-- The state when `main` starts. -/
structure Started (state : State n) : Prop where
  parent : state.parent = .unlinking
  children : ∀ i, state.child i = ⟨.absent, []⟩
  output : state.output = []

/-- The runs of the program. -/
def writers (arguments : Arguments n) (stdout : Stdout) :
    System (State n) (Call n) where
  start := Started
  step state call next := step arguments stdout state call = some next

/-- What a step can be. -/
inductive Taken (arguments : Arguments n) (stdout : Stdout)
    (state : State n) : State n → Prop where
  | unlinkFirst (parent : state.parent = .unlinking) :
      Taken arguments stdout state
        { state with lockFile := false, parent := nextFork n 0 }
  | unlinkLast (parent : state.parent = .cleaning) :
      Taken arguments stdout state
        { state with lockFile := false, parent := .finished 0 }
  | fork (i : Fin n) (parent : state.parent = .forking i) :
      Taken arguments stdout state
        { state.setChild i ⟨.acquiring, []⟩ with
          parent := nextFork n (i + 1) }
  | forkFails (child : Nat) (parent : state.parent = .forking child) :
      Taken arguments stdout state { state with parent := .finished 1 }
  | wait (i : Fin n) (how : Exit) (child : Nat)
      (parent : state.parent = .waiting child)
      (phase : (state.child i).phase = .exited how) :
      Taken arguments stdout state
        { state.setChild i { state.child i with phase := .reaped how } with
          parent := nextWait n (child + 1) }
  | waitFails (child : Nat) (parent : state.parent = .waiting child)
      (none : ∀ i, (state.child i).phase.isProcess = false) :
      Taken arguments stdout state
        { state with parent := nextWait n (child + 1) }
  | openLock (i : Fin n) (phase : (state.child i).phase = .acquiring) :
      Taken arguments stdout state (openLock state i)
  | openFails (i : Fin n) (phase : (state.child i).phase = .acquiring) :
      Taken arguments stdout state
        (state.setChild i
          { state.child i with phase := .exiting .acquireError })
  | printf (i : Fin n) (printed : Nat)
      (phase : (state.child i).phase = .writing printed)
      (more : printed < arguments.count)
      (room : stdout.overflows (state.child i).buffer = false) :
      Taken arguments stdout state (printf arguments stdout state i printed)
  | writeOut (i : Fin n) (printed : Nat)
      (phase : (state.child i).phase = .writing printed)
      (full : stdout.overflows (state.child i).buffer = true) :
      Taken arguments stdout state (writeOut stdout state i)
  | unlinkLock (i : Fin n) (printed : Nat)
      (phase : (state.child i).phase = .writing printed)
      (done : arguments.count ≤ printed)
      (room : stdout.overflows (state.child i).buffer = false) :
      Taken arguments stdout state (unlinkLock state i)
  | exit (i : Fin n) (how : Exit)
      (phase : (state.child i).phase = .exiting how) :
      Taken arguments stdout state (exit state i how)

theorem taken_of_parentStep
    {arguments : Arguments n} {stdout : Stdout} {state next : State n}
    {call : Call n} (ran : parentStep state call = some next) :
    Taken arguments stdout state next := by
  unfold parentStep at ran
  split at ran
  · split at ran <;> cases ran
    · exact .unlinkFirst ‹_›
    · exact .unlinkLast ‹_›
  · split at ran
    · split at ran
      · cases ran
        exact .fork ⟨_, ‹_›⟩ ‹_›
      · cases ran
    · cases ran
  · split at ran <;> cases ran
    exact .forkFails _ ‹_›
  · split at ran <;> cases ran
    exact .wait _ _ _ ‹_› ‹_›
  · split at ran
    · split at ran <;> cases ran
      exact .waitFails _ ‹_› ‹_›
    · cases ran
  · cases ran

theorem taken_of_childStep
    {arguments : Arguments n} {stdout : Stdout} {state next : State n}
    {call : Call n} (ran : childStep arguments stdout state call = some next) :
    Taken arguments stdout state next := by
  unfold childStep at ran
  split at ran
  · split at ran <;> cases ran
    exact .openLock _ ‹_›
  · split at ran <;> cases ran
    exact .openFails _ ‹_›
  · split at ran
    · split at ran <;> cases ran
      rename_i guard
      exact .printf _ _ ‹_› guard.1 guard.2
    · cases ran
  · split at ran
    · split at ran <;> cases ran
      exact .writeOut _ _ ‹_› ‹_›
    · cases ran
  · split at ran
    · split at ran <;> cases ran
      rename_i guard
      exact .unlinkLock _ _ ‹_› guard.1 guard.2
    · cases ran
  · split at ran <;> cases ran
    exact .exit _ _ ‹_›
  · cases ran

theorem taken_of_step
    {arguments : Arguments n} {stdout : Stdout} {state next : State n}
    {call : Call n} (ran : step arguments stdout state call = some next) :
    Taken arguments stdout state next := by
  unfold step at ran
  cases parent : parentStep state call with
  | some result =>
      rw [parent] at ran
      cases ran
      exact taken_of_parentStep parent
  | none =>
      rw [parent] at ran
      exact taken_of_childStep ran

end OSCourse.LockFile
