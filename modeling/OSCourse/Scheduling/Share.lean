import Mathlib.Tactic.Ring
import OSCourse.Scheduling.Charging

/-!
# Shares of the processor

A process pays its priority for each timer interrupt it takes in user mode, and
the scheduler keeps the accumulators of active processes together.  So on one
processor the interrupts of two processes that stay active are inversely
proportional to their priorities, up to a bound that no run exceeds.
-/

namespace OSCourse.Scheduling

open OSCourse.Library.TransitionSystem

variable {n : Nat}

/-- How often a stretch charges the process `p`. -/
def chargesOf {cpus : Nat} (p : Fin n) (steps : List (KernelStep n cpus)) :
    Nat :=
  steps.countP fun step => decide (Charges step.before step.label p)

/-- The process `p` is active in every state of a stretch. -/
def ActiveThroughout {cpus : Nat} (first : Kernel n cpus)
    (steps : List (KernelStep n cpus)) (p : Fin n) : Prop :=
  (first.proc p).active ∧ ∀ step ∈ steps, (step.after.proc p).active

/-- The process `p` has the same priority before every step. -/
def PriorityThroughout {cpus : Nat} (steps : List (KernelStep n cpus))
    (p : Fin n) (priority : Int) : Prop :=
  ∀ step ∈ steps, (step.before.proc p).psPriority = priority

theorem Proc.active.awake {p : Proc n} (active : p.active) : p.awake := by
  rcases active with runnable | running
  · simp [Proc.awake, runnable]
  · simp [Proc.awake, running]

/-- A process that stays active pays its priority for each charge. -/
theorem accumulator_of_charges
    {cpus : Nat} {system : System (Kernel n cpus) (Fin cpus × Op n)}
    (runs : ∀ kernel label next, system.step kernel label next →
      (kernelSystem n cpus).step kernel label next)
    {first last : Kernel n cpus} {steps : List (KernelStep n cpus)}
    (stretch : system.Stretch first steps last)
    (reached : (kernelSystem n cpus).Reachable first)
    {p : Fin n} {priority : Int}
    (active : ActiveThroughout first steps p)
    (constant : PriorityThroughout steps p priority) :
    (last.proc p).accumulator =
      (first.proc p).accumulator + priority * chargesOf p steps := by
  induction stretch with
  | nil => simp [chargesOf]
  | @cons kernel next last label rest taken _ induction =>
      rcases active with ⟨active, others⟩
      rcases List.forall_mem_cons.mp others with ⟨activeNext, others⟩
      rcases List.forall_mem_cons.mp constant with ⟨here, constant⟩
      simp only at here activeNext
      have ran := runs _ _ _ taken
      have charged := accumulator_exec (sound_of_reachable reached) ran
        active.awake
      have later := induction (reached.step ran) ⟨activeNext, others⟩ constant
      have count : chargesOf p (⟨kernel, label, next⟩ :: rest) =
          chargesOf p rest + if Charges kernel label p then 1 else 0 := by
        simp [chargesOf, List.countP_cons]
      rw [later, charged, here, count]
      split
      · push_cast
        ring
      · push_cast
        ring

/--
While two processes stay active with priorities `v` and `w`, the timer
interrupts they are charged for, weighted with their priorities, never differ by
more than twice the largest priority, whatever the others do.
-/
theorem proportional_share
    {first last : Kernel n 1} {steps : List (KernelStep n 1)}
    (reached : (sparingSystem n).Reachable first)
    (stretch : (sparingSystem n).Stretch first steps last)
    {p q : Fin n} {v w : Int}
    (activeP : ActiveThroughout first steps p)
    (activeQ : ActiveThroughout first steps q)
    (priorityP : PriorityThroughout steps p v)
    (priorityQ : PriorityThroughout steps q w) :
    |v * chargesOf p steps - w * chargesOf q steps| ≤ 2 * maxPriority := by
  have runs : ∀ kernel label next, (sparingSystem n).step kernel label next →
      (kernelSystem n 1).step kernel label next := fun _ _ _ taken => taken.2
  have grownP := accumulator_of_charges runs stretch reached.of_guarded
    activeP priorityP
  have grownQ := accumulator_of_charges runs stretch reached.of_guarded
    activeQ priorityQ
  have atEnd : ∀ r, ActiveThroughout first steps r →
      (last.proc r).active := by
    intro r active
    exact stretch.last_of_all (fun kernel => (kernel.proc r).active) active.1
      active.2
  have before := fair_of_reachable reached
  have after := fair_of_reachable (stretch.reachable reached)
  have beforeAbove := before.spread p q activeP.1 activeQ.1
  have beforeBelow := before.spread q p activeQ.1 activeP.1
  have afterAbove := after.spread p q (atEnd p activeP) (atEnd q activeQ)
  have afterBelow := after.spread q p (atEnd q activeQ) (atEnd p activeP)
  rw [abs_le]
  constructor
  · omega
  · omega

/-- The first process has used its quantum. -/
def parentCharged : Kernel 2 1 :=
  (exec forked onlyCpu .userTick).get (by decide)

/-- It is the turn of the second one. -/
def childTurn : Kernel 2 1 :=
  (exec parentCharged onlyCpu .schedule).get (by decide)

/-- The second process has used its quantum, too. -/
def bothCharged : Kernel 2 1 :=
  (exec childTurn onlyCpu .userTick).get (by decide)

/-- Both processes run for a quantum. -/
def quantumEach : List (KernelStep 2 1) :=
  [⟨forked, (onlyCpu, .userTick), parentCharged⟩,
    ⟨parentCharged, (onlyCpu, .schedule), childTurn⟩,
    ⟨childTurn, (onlyCpu, .userTick), bothCharged⟩]

theorem stretch_quantumEach :
    (sparingSystem 2).Stretch forked quantumEach bothCharged :=
  .cons ⟨by rintro _ ⟨⟩, (Option.some_get _).symm⟩
    (.cons ⟨by rintro _ ⟨⟩, (Option.some_get _).symm⟩
      (.cons ⟨by rintro _ ⟨⟩, (Option.some_get _).symm⟩ .nil))

theorem proportional_share_quantumEach :
    |5 * (chargesOf 0 quantumEach : Int) - 5 * chargesOf 1 quantumEach| ≤
      2 * maxPriority :=
  proportional_share reachable_forked stretch_quantumEach
    ⟨by decide, by decide⟩ ⟨by decide, by decide⟩
    (by unfold PriorityThroughout; decide)
    (by unfold PriorityThroughout; decide)

end OSCourse.Scheduling
