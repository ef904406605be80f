import Mathlib.Data.Fintype.Basic
import Mathlib.Data.List.FinRange
import Mathlib.Logic.Function.Basic
import OSCourse.Library.TransitionSystem

/-!
# The process table and its accumulators

Embedding of the scheduling part of `ex4/part1`: `proc.c`, the preemption of
`trap.c` and `sys_set_ps_priority`.  The table has `n` entries for any `n`, and
`cpus` counts the processors.  A process is its index in the table.  Of
`struct proc` the model keeps the fields that these functions read or write;
memory, files and contexts are left out, and whether the allocations of `fork`
succeed is an argument of it.  Accumulators and `nextpid` are unbounded
integers.  What rests on process ids that are never given twice says that
`nextpid` stays below `INT_MAX`, where the `int` of the source would overflow.

Every operation is one atomic step.  The source gives up the process locks in
`fork` between filling in the child and making it RUNNABLE, and in `wait`
between the test of `killed` and going to sleep; what another processor does
in between comes before or after the step here.  Where the source swtches away,
the step ends, and the first thing the resumed process does belongs to the step
that dispatches it.  A timer tick and the `wakeup(&ticks)` of `clockintr` are
two operations, in any order and number.
-/

namespace OSCourse.Scheduling

open OSCourse.Library.TransitionSystem

/-! ## Data -/

/-- `INT_MAX`. -/
def intMax : Int := 2147483647

/-- `enum procstate`. -/
inductive ProcState where
  | unused
  | used
  | sleeping
  | runnable
  | running
  | zombie
deriving DecidableEq, Repr

/-- What a process can sleep on: a process, the tick counter, another
address. -/
inductive Chan (n : Nat) where
  | proc (index : Fin n)
  | ticks
  | other (address : Nat)
deriving DecidableEq, Repr

/-- `struct proc`. -/
structure Proc (n : Nat) where
  state : ProcState
  chan : Option (Chan n)
  killed : Bool
  xstate : Int
  pid : Int
  parent : Option (Fin n)
  accumulator : Int
  psPriority : Int
deriving DecidableEq, Repr

/-- The process table. -/
abbrev Table (n : Nat) := Fin n → Proc n

/-- The process table with the variables beside it. -/
structure Kernel (n cpus : Nat) where
  proc : Table n
  cpu : Fin cpus → Option (Fin n)
  initproc : Option (Fin n)
  nextpid : Int

/-- RUNNABLE or RUNNING. -/
def Proc.active {n : Nat} (p : Proc n) : Prop :=
  p.state = .runnable ∨ p.state = .running

instance {n : Nat} (p : Proc n) : Decidable p.active :=
  inferInstanceAs (Decidable (_ ∨ _))

section Operations

variable {n cpus : Nat}

/-! ## The minimum -/

/-- The body of the loop of `get_min_accumulator`. -/
def minStep (table : Table n) (exceptP : Fin n) (minAcc : Int) (p : Fin n) :
    Int :=
  if p = exceptP then
    minAcc
  else if (table p).active then
    if minAcc = -1 ∨ (table p).accumulator < minAcc then
      (table p).accumulator
    else
      minAcc
  else
    minAcc

/-- `get_min_accumulator`. -/
def getMinAccumulator (table : Table n) (exceptP : Fin n) : Int :=
  let minAcc := (List.finRange n).foldl (minStep table exceptP) (-1)
  if minAcc = -1 then 0 else minAcc

/-! ## Allocating and freeing entries -/

/-- Whether the three allocations made for a new process succeed. -/
structure Memory where
  trapframe : Bool
  pagetable : Bool
  uvmcopy : Bool
deriving DecidableEq, Repr

/-- `freeproc`: the accumulator and the priority keep their values. -/
def freeproc (p : Proc n) : Proc n :=
  { p with
    pid := 0
    parent := none
    chan := none
    killed := false
    xstate := 0
    state := .unused }

/-- The entry `allocproc` fills in: the default priority and the minimum. -/
def freshProc (kernel : Kernel n cpus) (p : Fin n) : Proc n :=
  { kernel.proc p with
    pid := kernel.nextpid
    state := .used
    psPriority := 5
    accumulator := getMinAccumulator kernel.proc p }

/-- `allocproc`: the entry found, if any, is left in state USED. -/
def allocproc (memory : Memory) (kernel : Kernel n cpus) :
    Option (Fin n) × Kernel n cpus :=
  match (List.finRange n).find? fun p =>
      (kernel.proc p).state = .unused with
  | none => (none, kernel)
  | some p =>
      let found := freshProc kernel p
      let kernel := { kernel with nextpid := kernel.nextpid + 1 }
      if memory.trapframe ∧ memory.pagetable then
        (some p,
          { kernel with proc := Function.update kernel.proc p found })
      else
        (none,
          { kernel with
            proc := Function.update kernel.proc p (freeproc found) })

/-- `procinit`, on the zeroed table. -/
def procinit : Kernel n cpus where
  proc _ := ⟨.unused, none, false, 0, 0, none, 0, 0⟩
  cpu _ := none
  initproc := none
  nextpid := 1

/-- `userinit`: the first process, or `none` when there is no entry for it. -/
def userinit : Option (Kernel n cpus) :=
  match allocproc ⟨true, true, true⟩ (procinit : Kernel n cpus) with
  | (none, _) => none
  | (some p, kernel) =>
      some
        { kernel with
          initproc := some p
          proc :=
            Function.update kernel.proc p
              { kernel.proc p with state := .runnable } }

/-- `fork` by process `p`. -/
def fork (memory : Memory) (p : Fin n) (kernel : Kernel n cpus) :
    Kernel n cpus :=
  match allocproc memory kernel with
  | (none, kernel) => kernel
  | (some np, kernel) =>
      if memory.uvmcopy then
        { kernel with
          proc :=
            Function.update kernel.proc np
              { kernel.proc np with
                parent := some p
                state := .runnable } }
      else
        { kernel with
          proc :=
            Function.update kernel.proc np (freeproc (kernel.proc np)) }

/-! ## Sleeping and waking -/

/-- `sleep` by process `p`, up to the switch. -/
def sleep (chan : Chan n) (p : Fin n) (table : Table n) : Table n :=
  Function.update table p
    { table p with chan := some chan, state := .sleeping }

/-- The body of the loop of `wakeup`, run with the current process `me`. -/
def wakeupStep (chan : Option (Chan n)) (me : Option (Fin n))
    (table : Table n) (p : Fin n) : Table n :=
  if some p = me then
    table
  else if (table p).state = .sleeping ∧ (table p).chan = chan then
    Function.update table p
      { table p with
        accumulator := getMinAccumulator table p
        state := .runnable }
  else
    table

/-- `wakeup`. -/
def wakeup (chan : Option (Chan n)) (me : Option (Fin n)) (table : Table n) :
    Table n :=
  (List.finRange n).foldl (wakeupStep chan me) table

/-- `kill`: the table and the result. -/
def kill (pid : Int) (table : Table n) : Int × Table n :=
  match (List.finRange n).find? fun p => (table p).pid = pid with
  | none => (-1, table)
  | some p =>
      (0,
        Function.update table p
          { table p with
            killed := true
            state :=
              if (table p).state = .sleeping then .runnable
              else (table p).state })

/-! ## Exit and wait -/

/-- The body of the loop of `reparent`. -/
def reparentStep (initproc : Option (Fin n)) (p : Fin n) (table : Table n)
    (pp : Fin n) : Table n :=
  if (table pp).parent = some p then
    wakeup (initproc.map .proc) (some p)
      (Function.update table pp { table pp with parent := initproc })
  else
    table

/-- `reparent`. -/
def reparent (initproc : Option (Fin n)) (p : Fin n) (table : Table n) :
    Table n :=
  (List.finRange n).foldl (reparentStep initproc p) table

/-- `exit` by process `p`, up to the switch. -/
def exit (status : Int) (initproc : Option (Fin n)) (p : Fin n)
    (table : Table n) : Table n :=
  let table := reparent initproc p table
  let table := wakeup ((table p).parent.map .proc) (some p) table
  Function.update table p
    { table p with xstate := status, state := .zombie }

/-- What one pass over the children in `wait` comes to. -/
inductive WaitResult (n : Nat) where
  | reaped (child : Fin n)
  | copyoutFailed
  | noChildren
  | blocked
deriving DecidableEq, Repr

/--
One pass of the loop of `wait(addr)` by process `p`; the status is copied out
only when `addr` is not 0, and `copyout` tells whether that succeeds.
-/
def waitScan (addr : BitVec 64) (copyout : Bool) (p : Fin n)
    (table : Table n) : WaitResult n :=
  match (List.finRange n).find? fun pp =>
      (table pp).parent = some p ∧ (table pp).state = .zombie with
  | some child =>
      if addr ≠ 0 ∧ copyout = false then .copyoutFailed else .reaped child
  | none =>
      if (∃ pp, (table pp).parent = some p) ∧ (table p).killed = false then
        .blocked
      else
        .noChildren

/-! ## Dispatching and preempting -/

/-- The body of the scan of `scheduler`. -/
def scanStep (table : Table n) (minP : Option (Fin n)) (p : Fin n) :
    Option (Fin n) :=
  if (table p).state = .runnable then
    match minP with
    | none => some p
    | some best =>
        if (table p).accumulator < (table best).accumulator then some p
        else some best
  else
    minP

/-- The candidate the scan of `scheduler` ends with. -/
def scan (table : Table n) : Option (Fin n) :=
  (List.finRange n).foldl (scanStep table) none

/--
The dispatch of `scheduler`.  The process leaves `sched` and, when it was in
`sleep`, clears its channel.
-/
def dispatch (p : Fin n) (table : Table n) : Table n :=
  Function.update table p
    { table p with state := .running, chan := none }

/-- `yield`. -/
def yield (p : Fin n) (table : Table n) : Table n :=
  Function.update table p { table p with state := .runnable }

/-- The charge of `usertrap` for a timer interrupt. -/
def charge (p : Fin n) (table : Table n) : Table n :=
  if (table p).state = .running then
    Function.update table p
      { table p with
        accumulator := (table p).accumulator + (table p).psPriority }
  else
    table

/-- `sys_set_ps_priority`. -/
def setPsPriority (priority : Int) (p : Fin n) (table : Table n) :
    Int × Table n :=
  if priority < 1 ∨ 10 < priority then
    (-1, table)
  else
    (0, Function.update table p { table p with psPriority := priority })

end Operations

/-! ## Steps -/

/-- What can happen on a processor. -/
inductive Op (n : Nat) where
  | schedule
  | userTick
  | kernelTick
  | fork (memory : Memory)
  | sleep (chan : Chan n)
  | wakeup (chan : Chan n)
  | exit (status : Int)
  | wait (addr : BitVec 64) (copyout : Bool)
  | kill (pid : Int)
  | setPsPriority (priority : Int)
deriving DecidableEq, Repr

section Steps

variable {n cpus : Nat}

/-- The processor `c` runs nothing and the table is `table`. -/
def Kernel.switched (kernel : Kernel n cpus) (c : Fin cpus)
    (table : Table n) : Kernel n cpus :=
  { kernel with proc := table, cpu := Function.update kernel.cpu c none }

/-- `exit` by process `p` on processor `c`; the first process panics. -/
def exitOp (kernel : Kernel n cpus) (c : Fin cpus) (p : Fin n)
    (status : Int) : Option (Kernel n cpus) :=
  if kernel.initproc = some p then
    none
  else
    some (kernel.switched c (exit status kernel.initproc p kernel.proc))

/--
The operations of the running process `p` on processor `c`.  A killed process
that takes a timer interrupt in user mode exits before it is charged.
-/
def runningOp (kernel : Kernel n cpus) (c : Fin cpus) (p : Fin n) :
    Op n → Option (Kernel n cpus)
  | .schedule => none
  | .userTick =>
      if (kernel.proc p).killed then
        exitOp kernel c p (-1)
      else
        some (kernel.switched c (yield p (charge p kernel.proc)))
  | .kernelTick =>
      if (kernel.proc p).state = .running then
        some (kernel.switched c (yield p kernel.proc))
      else
        some kernel
  | .fork memory => some (fork memory p kernel)
  | .sleep chan => some (kernel.switched c (sleep chan p kernel.proc))
  | .wakeup chan =>
      some { kernel with proc := wakeup (some chan) (some p) kernel.proc }
  | .exit status => exitOp kernel c p status
  | .wait addr copyout =>
      match waitScan addr copyout p kernel.proc with
      | .reaped child =>
          some
            { kernel with
              proc :=
                Function.update kernel.proc child
                  (freeproc (kernel.proc child)) }
      | .copyoutFailed => some kernel
      | .noChildren => some kernel
      | .blocked =>
          some (kernel.switched c (sleep (.proc p) p kernel.proc))
  | .kill pid => some { kernel with proc := (kill pid kernel.proc).2 }
  | .setPsPriority priority =>
      some { kernel with proc := (setPsPriority priority p kernel.proc).2 }

/--
One operation on processor `c`.  An idle processor schedules or takes an
interrupt that wakes processes; a busy one runs its process.  `none` is an
operation that cannot happen: a system call on an idle processor, a scheduler
selection on a busy one, or `exit` by the first process, which panics.
-/
def exec (kernel : Kernel n cpus) (c : Fin cpus) (op : Op n) :
    Option (Kernel n cpus) :=
  match kernel.cpu c with
  | some p => runningOp kernel c p op
  | none =>
      match op with
      | .schedule =>
          match scan kernel.proc with
          | none => some kernel
          | some p =>
              some
                { kernel with
                  proc := dispatch p kernel.proc
                  cpu := Function.update kernel.cpu c (some p) }
      | .wakeup chan =>
          some { kernel with proc := wakeup (some chan) none kernel.proc }
      | _ => none

/-- The next process id has not reached the end of its range. -/
def Numbered (kernel : Kernel n cpus) (_ : Fin cpus × Op n) : Prop :=
  kernel.nextpid < intMax

instance (kernel : Kernel n cpus) (label : Fin cpus × Op n) :
    Decidable (Numbered kernel label) :=
  inferInstanceAs (Decidable (_ < _))

/-- The runs of the kernel from the state `userinit` leaves. -/
def kernelSystem (n cpus : Nat) :
    System (Kernel n cpus) (Fin cpus × Op n) where
  start kernel := userinit = some kernel
  step kernel label next := exec kernel label.1 label.2 = some next

end Steps

end OSCourse.Scheduling
