import Mathlib.Data.Fintype.Basic
import OSCourse.Library.LockProgram

/-!
# Counting semaphores

Embedding of `ex4/part2/sem.c` with `sleep`, `wakeup` and `kill` of xv6
(`ex4/part1/proc.c` without the accumulators).  There are `m` slots and `n`
processes, for any `m` and `n`.  The system calls are cut at every acquire and
release of the array lock, of the lock of a slot and of the lock of a process;
`sem_create` is also cut at its assignments, which it makes without the lock of
the slot.

Values are unbounded integers, and an `int` is not: a step that takes the value
of a slot out of its range has no meaning in C.  `Fits` says that a step does
not, and the results in which a value could get there carry it.

A process acts for itself wherever it runs.  In `sched` the scheduler of its
processor acts for it: it releases the lock of the process after the switch, and
acquires it again when it dispatches the process.
-/

namespace OSCourse.Semaphore

open OSCourse.Library.LockProgram
open OSCourse.Library.TransitionSystem

/-! ## Data -/

/-- `struct sem` without its lock. -/
structure Sem where
  value : Int
  initValue : Int
  used : Bool
deriving DecidableEq, Repr

/-- The states of a process that `sleep`, `wakeup` and `kill` tell apart. -/
inductive ProcState where
  | sleeping
  | runnable
  | running
deriving DecidableEq, Repr

/-- `struct proc`; the channels are the slots. -/
structure Proc (m : Nat) where
  state : ProcState
  chan : Option (Fin m)
  killed : Bool
  pid : Int
deriving DecidableEq, Repr

/--
The slots and the processes.  The last four fields are history: the completed
calls that changed the value, for each slot and process; how often a slot was
taken by `sem_create`; and for a process in `sem_down` the count of that slot
when it made its used check.
-/
structure Shared (m n : Nat) where
  sems : Fin m → Sem
  procs : Fin n → Proc m
  ups : Fin m → Fin n → Nat
  downs : Fin m → Fin n → Nat
  creations : Fin m → Nat
  passed : Fin n → Nat

/-- `sem_array_lock`, the lock of a slot, the lock of a process. -/
inductive Lock (m n : Nat) where
  | array
  | sem (id : Fin m)
  | proc (p : Fin n)
deriving DecidableEq, Repr

/-- The system calls. -/
inductive Call where
  | semCreate (initValue : Int)
  | semFree (id : Int)
  | semDown (id : Int)
  | semUp (id : Int)
  | kill (pid : Int)
deriving DecidableEq, Repr

/-- Where a process stands in a system call. -/
inductive Pc (m n : Nat) where
  | outside
  | createAcquire (initValue : Int)
  | createScan (initValue : Int) (i : Nat)
  | createValue (initValue : Int) (i : Fin m)
  | createInit (initValue : Int) (i : Fin m)
  | createReturn (result : Option (Fin m))
  | freeAcquire (id : Fin m)
  | freeCheck (id : Fin m)
  | freeAcquireSem (id : Fin m)
  | freeTest (id : Fin m)
  | freeReleaseSem (id : Fin m) (result : Int)
  | freeReturn (id : Fin m) (result : Int)
  | downAcquire (id : Fin m)
  | downCheck (id : Fin m)
  | downTest (id : Fin m)
  | sleepAcquire (id : Fin m)
  | sleepRelease (id : Fin m)
  | sleepMark (id : Fin m)
  | sleepSched (id : Fin m)
  | asleep (id : Fin m)
  | sleepTidy (id : Fin m)
  | downReacquire (id : Fin m)
  | downDecrement (id : Fin m)
  | downReturn (id : Fin m) (result : Int)
  | upAcquire (id : Fin m)
  | upCheck (id : Fin m)
  | upIncrement (id : Fin m)
  | wakeup (id : Fin m) (next : Nat)
  | wakeupLocked (id : Fin m) (q : Fin n)
  | upReturn (id : Fin m) (result : Int)
  | kill (pid : Int) (next : Nat)
  | killLocked (pid : Int) (q : Fin n)
deriving DecidableEq, Repr

section Steps

variable {m n : Nat}

/-! ## Updates -/

def Shared.setSem (shared : Shared m n) (id : Fin m) (sem : Sem) :
    Shared m n :=
  { shared with sems := Function.update shared.sems id sem }

def Shared.setProc (shared : Shared m n) (p : Fin n) (proc : Proc m) :
    Shared m n :=
  { shared with procs := Function.update shared.procs p proc }

@[simp, grind =]
theorem Shared.setSem_sems (shared : Shared m n) (slot id : Fin m)
    (sem : Sem) :
    (shared.setSem slot sem).sems id =
      if id = slot then sem else shared.sems id :=
  Function.update_apply _ _ _ _

@[simp, grind =]
theorem Shared.setProc_procs (shared : Shared m n) (p q : Fin n)
    (proc : Proc m) :
    (shared.setProc p proc).procs q =
      if q = p then proc else shared.procs q :=
  Function.update_apply _ _ _ _

@[simp, grind =]
theorem Shared.setSem_procs (shared : Shared m n) (id : Fin m) (sem : Sem) :
    (shared.setSem id sem).procs = shared.procs :=
  rfl

@[simp, grind =]
theorem Shared.setSem_ups (shared : Shared m n) (id : Fin m) (sem : Sem) :
    (shared.setSem id sem).ups = shared.ups :=
  rfl

@[simp, grind =]
theorem Shared.setSem_downs (shared : Shared m n) (id : Fin m) (sem : Sem) :
    (shared.setSem id sem).downs = shared.downs :=
  rfl

@[simp, grind =]
theorem Shared.setSem_creations (shared : Shared m n) (id : Fin m) (sem : Sem) :
    (shared.setSem id sem).creations = shared.creations :=
  rfl

@[simp, grind =]
theorem Shared.setSem_passed (shared : Shared m n) (id : Fin m) (sem : Sem) :
    (shared.setSem id sem).passed = shared.passed :=
  rfl

@[simp, grind =]
theorem Shared.setProc_sems (shared : Shared m n) (p : Fin n) (proc : Proc m) :
    (shared.setProc p proc).sems = shared.sems :=
  rfl

@[simp, grind =]
theorem Shared.setProc_ups (shared : Shared m n) (p : Fin n) (proc : Proc m) :
    (shared.setProc p proc).ups = shared.ups :=
  rfl

@[simp, grind =]
theorem Shared.setProc_downs (shared : Shared m n) (p : Fin n) (proc : Proc m) :
    (shared.setProc p proc).downs = shared.downs :=
  rfl

@[simp, grind =]
theorem Shared.setProc_creations (shared : Shared m n) (p : Fin n)
    (proc : Proc m) :
    (shared.setProc p proc).creations = shared.creations :=
  rfl

@[simp, grind =]
theorem Shared.setProc_passed (shared : Shared m n) (p : Fin n)
    (proc : Proc m) :
    (shared.setProc p proc).passed = shared.passed :=
  rfl

/-- A counter of completed calls after one more by `p` on `id`. -/
def count (counts : Fin m → Fin n → Nat) (id : Fin m) (p : Fin n) :
    Fin m → Fin n → Nat :=
  Function.update counts id
    (Function.update (counts id) p (counts id p + 1))

/-! ## The system calls -/

/-- The range check on an id. -/
def slotAt (id : Int) : Option (Fin m) :=
  if inside : 0 ≤ id ∧ id < m then
    some ⟨id.toNat, by omega⟩
  else
    none

/-- The entry of a system call; an id out of range returns -1 at once. -/
def Call.entry : Call → Pc m n
  | .semCreate initValue => .createAcquire initValue
  | .semFree id => (slotAt id).elim .outside .freeAcquire
  | .semDown id => (slotAt id).elim .outside .downAcquire
  | .semUp id => (slotAt id).elim .outside .upAcquire
  | .kill pid => .kill pid 0

/--
The lock that the next step acquires.  A process that sleeps asks for nothing;
once it is RUNNABLE the scheduler takes its lock.
-/
def Pc.asks (p : Fin n) (shared : Shared m n) :
    Pc m n → Option (Lock m n)
  | .createAcquire _ => some .array
  | .freeAcquire _ => some .array
  | .freeAcquireSem id => some (.sem id)
  | .downAcquire id => some (.sem id)
  | .downReacquire id => some (.sem id)
  | .upAcquire id => some (.sem id)
  | .sleepAcquire _ => some (.proc p)
  | .asleep _ =>
      if (shared.procs p).state = .runnable then some (.proc p) else none
  | .wakeup _ next =>
      ((entryAt next).filter fun q => q ≠ p).map .proc
  | .kill _ next => (entryAt next).map .proc
  | _ => none

/-- Where a process stands once it has the lock. -/
def Pc.acquired : Lock m n → Pc m n → Pc m n
  | _, .createAcquire initValue => .createScan initValue 0
  | _, .freeAcquire id => .freeCheck id
  | _, .freeAcquireSem id => .freeTest id
  | _, .downAcquire id => .downCheck id
  | _, .downReacquire id => .downTest id
  | _, .upAcquire id => .upCheck id
  | _, .sleepAcquire id => .sleepRelease id
  | _, .asleep id => .sleepTidy id
  | .proc q, .wakeup id _ => .wakeupLocked id q
  | .proc q, .kill pid _ => .killLocked pid q
  | _, pc => pc

/-- The code of process `p` between acquires, up to one release. -/
def Pc.body (p : Fin n) (shared : Shared m n) :
    Pc m n → Option (Effect (Shared m n) (Lock m n) (Pc m n))
  | .createScan initValue i =>
      if inside : i < m then
        let id : Fin m := ⟨i, inside⟩
        if (shared.sems id).used then
          some ⟨shared, none, .createScan initValue (i + 1)⟩
        else
          some
            ⟨{ shared.setSem id { shared.sems id with used := true } with
                creations :=
                  Function.update shared.creations id
                    (shared.creations id + 1) },
              none, .createValue initValue id⟩
      else
        some ⟨shared, none, .createReturn none⟩
  | .createValue initValue id =>
      some
        ⟨shared.setSem id { shared.sems id with value := initValue },
          none, .createInit initValue id⟩
  | .createInit initValue id =>
      some
        ⟨shared.setSem id { shared.sems id with initValue := initValue },
          none, .createReturn (some id)⟩
  | .createReturn _ => some ⟨shared, some .array, .outside⟩
  | .freeCheck id =>
      if (shared.sems id).used then
        some ⟨shared, none, .freeAcquireSem id⟩
      else
        some ⟨shared, none, .freeReturn id (-1)⟩
  | .freeTest id =>
      if (shared.sems id).value = (shared.sems id).initValue then
        some ⟨shared.setSem id ⟨0, 0, false⟩, none, .freeReleaseSem id 0⟩
      else
        some ⟨shared, none, .freeReleaseSem id (-1)⟩
  | .freeReleaseSem id result =>
      some ⟨shared, some (.sem id), .freeReturn id result⟩
  | .freeReturn _ _ => some ⟨shared, some .array, .outside⟩
  | .downCheck id =>
      if (shared.sems id).used then
        some
          ⟨{ shared with
              passed :=
                Function.update shared.passed p (shared.creations id) },
            none, .downTest id⟩
      else
        some ⟨shared, none, .downReturn id (-1)⟩
  | .downTest id =>
      if (shared.sems id).value = 0 then
        some ⟨shared, none, .sleepAcquire id⟩
      else
        some ⟨shared, none, .downDecrement id⟩
  | .sleepRelease id => some ⟨shared, some (.sem id), .sleepMark id⟩
  | .sleepMark id =>
      some
        ⟨shared.setProc p
            { shared.procs p with chan := some id, state := .sleeping },
          none, .sleepSched id⟩
  | .sleepSched id => some ⟨shared, some (.proc p), .asleep id⟩
  | .sleepTidy id =>
      some
        ⟨shared.setProc p
            { shared.procs p with chan := none, state := .running },
          some (.proc p), .downReacquire id⟩
  | .downDecrement id =>
      some
        ⟨shared.setSem id
            { shared.sems id with value := (shared.sems id).value - 1 },
          none, .downReturn id 0⟩
  | .downReturn id result =>
      if result = 0 then
        some
          ⟨{ shared with downs := count shared.downs id p },
            some (.sem id), .outside⟩
      else
        some ⟨shared, some (.sem id), .outside⟩
  | .upCheck id =>
      if (shared.sems id).used then
        some ⟨shared, none, .upIncrement id⟩
      else
        some ⟨shared, none, .upReturn id (-1)⟩
  | .upIncrement id =>
      some
        ⟨shared.setSem id
            { shared.sems id with value := (shared.sems id).value + 1 },
          none, .wakeup id 0⟩
  | .wakeup id next =>
      if next < n then
        some ⟨shared, none, .wakeup id (next + 1)⟩
      else
        some ⟨shared, none, .upReturn id 0⟩
  | .wakeupLocked id q =>
      if (shared.procs q).state = .sleeping ∧
          (shared.procs q).chan = some id then
        some
          ⟨shared.setProc q { shared.procs q with state := .runnable },
            some (.proc q), .wakeup id (q + 1)⟩
      else
        some ⟨shared, some (.proc q), .wakeup id (q + 1)⟩
  | .upReturn id result =>
      if result = 0 then
        some
          ⟨{ shared with ups := count shared.ups id p },
            some (.sem id), .outside⟩
      else
        some ⟨shared, some (.sem id), .outside⟩
  | .kill _ _ => some ⟨shared, none, .outside⟩
  | .killLocked pid q =>
      if (shared.procs q).pid = pid then
        some
          ⟨shared.setProc q
              { shared.procs q with
                killed := true
                state :=
                  if (shared.procs q).state = .sleeping then .runnable
                  else (shared.procs q).state },
            some (.proc q), .outside⟩
      else
        some ⟨shared, some (.proc q), .kill pid (q + 1)⟩
  | _ => none

/-- The system calls as a program of the processes. -/
def semProgram (m n : Nat) :
    Program (Fin n) (Shared m n) (Lock m n) (Pc m n) Call Unit where
  outside := .outside
  enter := Call.entry
  asks := Pc.asks
  acquired := Pc.acquired
  body p shared _ := Pc.body p shared

abbrev SemState (m n : Nat) :=
  State (Fin n) (Shared m n) (Lock m n) (Pc m n)

abbrev SemLabel (n : Nat) := Fin n × Move Call Unit

/-- `seminit`, with no process asleep and nothing done yet. -/
structure Booted (shared : Shared m n) : Prop where
  sems : ∀ id, shared.sems id = ⟨0, 0, false⟩
  running : ∀ p, (shared.procs p).state = .running
  ups : ∀ id p, shared.ups id p = 0
  downs : ∀ id p, shared.downs id p = 0

/-- The interleavings of the system calls. -/
def semSystem (m n : Nat) : System (SemState m n) (SemLabel n) :=
  (semProgram m n).system Booted

/-! ## The range of a value -/

/-- `INT_MIN`. -/
def intMin : Int := -2147483648

/-- `INT_MAX`. -/
def intMax : Int := 2147483647

/-- The step does not increment the largest value of the slot, nor decrement
the smallest. -/
structure Fits (id : Fin m) (state : SemState m n) (label : SemLabel n) :
    Prop where
  up : state.pc label.1 = .upIncrement id →
    (state.shared.sems id).value < intMax
  down : state.pc label.1 = .downDecrement id →
    intMin < (state.shared.sems id).value

instance (id : Fin m) (state : SemState m n) (label : SemLabel n) :
    Decidable (Fits id state label) :=
  decidable_of_iff
    ((state.pc label.1 = .upIncrement id →
        (state.shared.sems id).value < intMax) ∧
      (state.pc label.1 = .downDecrement id →
        intMin < (state.shared.sems id).value))
    ⟨fun both => ⟨both.1, both.2⟩, fun fits => ⟨fits.1, fits.2⟩⟩

end Steps

end OSCourse.Semaphore
