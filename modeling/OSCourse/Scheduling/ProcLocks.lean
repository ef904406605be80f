import OSCourse.Library.LockProgram
import OSCourse.Scheduling.Proc

/-!
# The process locks

The routines of `ex4/part1/proc.c` that take more than one process lock, cut at
every `acquire` and `release` of one: the scan of `scheduler`, which keeps the
lock of its candidate while it takes the later ones, and `wakeup` and
`allocproc`, which keep the lock of one process while `get_min_accumulator`
takes all others.  `kill` and the remaining critical sections of `proc.c` take
one process lock at a time.
-/

namespace OSCourse.Scheduling

open OSCourse.Library.LockProgram
open OSCourse.Library.TransitionSystem

/-! ## Program counters -/

/-- The caller of `get_min_accumulator`. -/
inductive Caller (n : Nat) where
  | wakeup (chan : Option (Chan n)) (me : Option (Fin n))
  | allocproc
deriving DecidableEq, Repr

/--
Where a processor stands.  In a loop over the table, `next` is the entry whose
lock comes next; the constructors that end in `Locked` hold the lock of `p`.
-/
inductive Pc (n : Nat) where
  | outside
  | scan (next : Nat) (minP : Option (Fin n))
  | scanLocked (p : Fin n) (minP : Option (Fin n))
  | dispatched (p : Fin n)
  | wakeup (chan : Option (Chan n)) (me : Option (Fin n)) (next : Nat)
  | wakeupLocked (chan : Option (Chan n)) (me : Option (Fin n)) (p : Fin n)
  | allocproc (next : Nat)
  | allocprocLocked (p : Fin n)
  | allocated (p : Fin n)
  | minAccumulator (caller : Caller n) (exceptP : Fin n) (next : Nat)
      (minAcc : Int)
  | minAccumulatorLocked (caller : Caller n) (exceptP p : Fin n)
      (minAcc : Int)
  | kill (pid : Int) (next : Nat)
  | killLocked (pid : Int) (p : Fin n)
  | touch (p : Fin n) (entry : Proc n)
  | touchLocked (p : Fin n) (entry : Proc n)
deriving DecidableEq, Repr

/-- What the process locks and `pid_lock` protect. -/
structure PidTable (n : Nat) where
  proc : Table n
  nextpid : Int

/--
The routines a processor can start.  `touch` is any other critical section on
one process, with what it leaves in the entry: `yield`, `sleep`, `exit`, the
second half of `fork`, `freeproc` in `wait`, `setkilled`.
-/
inductive Routine (n : Nat) where
  | scan
  | wakeup (chan : Option (Chan n)) (me : Option (Fin n))
  | allocproc
  | kill (pid : Int)
  | touch (p : Fin n) (entry : Proc n)
deriving DecidableEq, Repr

section Steps

variable {n cpus : Nat}

def Routine.entry : Routine n → Pc n
  | .scan => .scan 0 none
  | .wakeup chan me => .wakeup chan me 0
  | .allocproc => .allocproc 0
  | .kill pid => .kill pid 0
  | .touch p entry => .touch p entry

/-- The lock a processor is about to acquire. -/
def Pc.asks : Pc n → Option (Fin n)
  | .scan next _ => entryAt next
  | .wakeup _ me next => (entryAt next).filter fun p => some p ≠ me
  | .allocproc next => entryAt next
  | .minAccumulator _ exceptP next _ =>
      (entryAt next).filter fun p => p ≠ exceptP
  | .kill _ next => entryAt next
  | .touch p _ => some p
  | _ => none

/-- Where a processor stands once it has the lock of `p`. -/
def Pc.acquired (p : Fin n) : Pc n → Pc n
  | .scan _ minP => .scanLocked p minP
  | .wakeup chan me _ => .wakeupLocked chan me p
  | .allocproc _ => .allocprocLocked p
  | .minAccumulator caller exceptP _ minAcc =>
      .minAccumulatorLocked caller exceptP p minAcc
  | .kill pid _ => .killLocked pid p
  | .touch _ entry => .touchLocked p entry
  | pc => pc

/-- `return min_acc` of `get_min_accumulator`. -/
def minResult (minAcc : Int) : Int :=
  if minAcc = -1 then 0 else minAcc

/-- The table with the entry of `p` replaced. -/
def PidTable.set (shared : PidTable n) (p : Fin n) (entry : Proc n) :
    PidTable n :=
  { shared with proc := Function.update shared.proc p entry }

/--
The code up to the next acquire or past one release.  The flag says whether the
allocations of `allocproc` succeed, where they are made.
-/
def Pc.body (shared : PidTable n) (memory : Bool) :
    Pc n → Option (Effect (PidTable n) (Fin n) (Pc n))
  | .outside => none
  | .scan _ none => some ⟨shared, none, .outside⟩
  | .scan _ (some p) =>
      some
        ⟨{ shared with proc := dispatch p shared.proc }, none, .dispatched p⟩
  | .scanLocked p minP =>
      if (shared.proc p).state = .runnable then
        match minP with
        | none => some ⟨shared, none, .scan (p + 1) (some p)⟩
        | some best =>
            if (shared.proc p).accumulator <
                (shared.proc best).accumulator then
              some ⟨shared, some best, .scan (p + 1) (some p)⟩
            else
              some ⟨shared, some p, .scan (p + 1) (some best)⟩
      else
        some ⟨shared, some p, .scan (p + 1) minP⟩
  | .dispatched p => some ⟨shared, some p, .outside⟩
  | .wakeup chan me next =>
      if next < n then
        some ⟨shared, none, .wakeup chan me (next + 1)⟩
      else
        some ⟨shared, none, .outside⟩
  | .wakeupLocked chan me p =>
      if (shared.proc p).state = .sleeping ∧
          (shared.proc p).chan = chan then
        some ⟨shared, none, .minAccumulator (.wakeup chan me) p 0 (-1)⟩
      else
        some ⟨shared, some p, .wakeup chan me (p + 1)⟩
  | .allocproc _ => some ⟨shared, none, .outside⟩
  | .allocprocLocked p =>
      if (shared.proc p).state = .unused then
        some
          ⟨{ shared.set p
                { shared.proc p with
                  pid := shared.nextpid
                  state := .used
                  psPriority := 5 } with
              nextpid := shared.nextpid + 1 },
            none, .minAccumulator .allocproc p 0 (-1)⟩
      else
        some ⟨shared, some p, .allocproc (p + 1)⟩
  | .allocated p =>
      if memory then
        some ⟨shared, some p, .outside⟩
      else
        some
          ⟨shared.set p (freeproc (shared.proc p)), some p, .outside⟩
  | .minAccumulator caller exceptP next minAcc =>
      if next < n then
        some
          ⟨shared, none, .minAccumulator caller exceptP (next + 1) minAcc⟩
      else
        match caller with
        | .wakeup chan me =>
            some
              ⟨shared.set exceptP
                  { shared.proc exceptP with
                    accumulator := minResult minAcc
                    state := .runnable },
                some exceptP, .wakeup chan me (exceptP + 1)⟩
        | .allocproc =>
            some
              ⟨shared.set exceptP
                  { shared.proc exceptP with
                    accumulator := minResult minAcc },
                none, .allocated exceptP⟩
  | .minAccumulatorLocked caller exceptP p minAcc =>
      some
        ⟨shared, some p,
          .minAccumulator caller exceptP (p + 1)
            (minStep shared.proc exceptP minAcc p)⟩
  | .kill _ _ => some ⟨shared, none, .outside⟩
  | .killLocked pid p =>
      if (shared.proc p).pid = pid then
        some
          ⟨shared.set p
              { shared.proc p with
                killed := true
                state :=
                  if (shared.proc p).state = .sleeping then .runnable
                  else (shared.proc p).state },
            some p, .outside⟩
      else
        some ⟨shared, some p, .kill pid (p + 1)⟩
  | .touch _ _ => none
  | .touchLocked p entry => some ⟨shared.set p entry, some p, .outside⟩

/-- The routines as a program of the processors over the process locks. -/
def procProgram (n cpus : Nat) :
    Program (Fin cpus) (PidTable n) (Fin n) (Pc n) (Routine n) Bool where
  outside := .outside
  enter := Routine.entry
  asks _ _ := Pc.asks
  acquired := Pc.acquired
  body _ := Pc.body

/-- The process table, the holder of each lock, and the processors. -/
abbrev LockState (n cpus : Nat) :=
  State (Fin cpus) (PidTable n) (Fin n) (Pc n)

/-- A processor and what it does. -/
abbrev LockLabel (n cpus : Nat) := Fin cpus × Move (Routine n) Bool

/-- The interleavings of the processors, from any table. -/
def lockSystem (n cpus : Nat) :
    System (LockState n cpus) (LockLabel n cpus) :=
  (procProgram n cpus).system fun _ => True

/-- Processor `c` is at the acquire of the lock of `p`. -/
def Waits (state : LockState n cpus) (c : Fin cpus) (p : Fin n) : Prop :=
  (state.pc c).asks = some p

/-- Processor `c` holds the lock of `p`. -/
def Holds (state : LockState n cpus) (c : Fin cpus) (p : Fin n) : Prop :=
  state.owner p = some c

end Steps

end OSCourse.Scheduling
