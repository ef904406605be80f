import Mathlib.Algebra.BigOperators.Group.List.Basic
import Mathlib.Algebra.Ring.Int.Defs
import OSCourse.Scheduling.WakeRule

/-!
# Paying for quanta

`usertrap` charges a preempted process with its priority and `kerneltrap` does
not.  Nothing else changes the accumulator of a process that is awake, so over
a stretch of a run the accumulator of a process that never sleeps grows by the
priorities it had at its preemptions exactly when none of these preemptions
came in kernel mode.
-/

namespace OSCourse.Scheduling

open OSCourse.Library.TransitionSystem

variable {n cpus : Nat}

/-! ## The rule -/

/-- One step of the kernel. -/
abbrev KernelStep (n cpus : Nat) :=
  Transition (Kernel n cpus) (Fin cpus × Op n)

/-- A timer interrupt in user or in kernel mode. -/
def Op.isTick : Op n → Bool
  | .userTick => true
  | .kernelTick => true
  | _ => false

/-- The step is a timer interrupt that takes the processor from `p`. -/
def Preempts (step : KernelStep n cpus) (p : Fin n) : Prop :=
  step.label.2.isTick = true ∧
    step.before.cpu step.label.1 = some p ∧
    (step.before.proc p).state = .running ∧
    (step.after.proc p).state = .runnable

instance (step : KernelStep n cpus) (p : Fin n) :
    Decidable (Preempts step p) :=
  inferInstanceAs (Decidable (_ ∧ _ ∧ _ ∧ _))

/-- The priority of `p` if the step preempts it. -/
def preemptedPriority (p : Fin n) (step : KernelStep n cpus) : Int :=
  if Preempts step p then (step.before.proc p).psPriority else 0

/-- An allocated process that does not sleep. -/
def Proc.awake (p : Proc n) : Prop :=
  p.state ≠ .unused ∧ p.state ≠ .sleeping

instance (p : Proc n) : Decidable p.awake :=
  inferInstanceAs (Decidable (_ ∧ _))

/-- The process `p` is awake in every state of a stretch. -/
def AwakeThroughout (first : Kernel n cpus) (steps : List (KernelStep n cpus))
    (p : Fin n) : Prop :=
  (first.proc p).awake ∧ ∀ step ∈ steps, (step.after.proc p).awake

/--
Every preemption of a stretch charges the process once with its priority, and
the accumulator of a process that is awake throughout grows by these charges.
-/
structure ChargeLaw (first : Kernel n cpus)
    (steps : List (KernelStep n cpus)) (last : Kernel n cpus) : Prop where
  preemption : ∀ step ∈ steps, ∀ p, Preempts step p →
    (step.after.proc p).accumulator =
      (step.before.proc p).accumulator + (step.before.proc p).psPriority
  growth : ∀ p, AwakeThroughout first steps p →
    (last.proc p).accumulator =
      (first.proc p).accumulator + (steps.map (preemptedPriority p)).sum

/-! ## What keeps the accumulator -/

/-- The accumulator of `p` stays if `p` is awake, and `p` does not fall asleep
or wake up. -/
def KeepsAwake (p : Fin n) (before after : Table n) : Prop :=
  (before p).state ≠ .sleeping →
    (after p).state = (before p).state ∧
      (after p).accumulator = (before p).accumulator

theorem KeepsAwake.refl (p : Fin n) (table : Table n) :
    KeepsAwake p table table :=
  fun _ => ⟨rfl, rfl⟩

theorem KeepsAwake.trans
    {p : Fin n} {first second third : Table n}
    (left : KeepsAwake p first second) (right : KeepsAwake p second third) :
    KeepsAwake p first third := by
  intro awake
  rcases left awake with ⟨state, accumulator⟩
  rcases right (by rw [state]; exact awake) with ⟨state', accumulator'⟩
  exact ⟨state'.trans state, accumulator'.trans accumulator⟩

theorem keepsAwake_foldl
    {p : Fin n} {body : Table n → Fin n → Table n}
    (kept : ∀ table q, KeepsAwake p table (body table q))
    (entries : List (Fin n)) (table : Table n) :
    KeepsAwake p table (entries.foldl body table) := by
  induction entries generalizing table with
  | nil => exact .refl p table
  | cons q rest ih => exact (kept table q).trans (ih (body table q))

theorem keepsAwake_wakeup
    (p : Fin n) (chan : Option (Chan n)) (me : Option (Fin n))
    (table : Table n) :
    KeepsAwake p table (wakeup chan me table) := by
  refine keepsAwake_foldl ?_ _ table
  intro table q awake
  unfold wakeupStep
  split
  · exact ⟨rfl, rfl⟩
  · split
    · rename_i asleep
      have other : p ≠ q := by
        rintro rfl
        exact awake asleep.1
      rw [Function.update_of_ne other]
      exact ⟨rfl, rfl⟩
    · exact ⟨rfl, rfl⟩

theorem keepsAwake_reparent
    (p : Fin n) (initproc : Option (Fin n)) (parent : Fin n)
    (table : Table n) :
    KeepsAwake p table (reparent initproc parent table) := by
  refine keepsAwake_foldl ?_ _ table
  intro table child
  unfold reparentStep
  split
  · refine KeepsAwake.trans ?_ (keepsAwake_wakeup p _ _ _)
    intro _
    by_cases same : p = child
    · subst same
      simp
    · rw [Function.update_of_ne same]
      exact ⟨rfl, rfl⟩
  · exact .refl p table

theorem accumulator_exit
    {table : Table n} {p : Fin n} (awake : (table p).state ≠ .sleeping)
    (status : Int) (initproc : Option (Fin n)) (q : Fin n) :
    (exit status initproc q table p).accumulator =
      (table p).accumulator := by
  have kept := ((keepsAwake_reparent p initproc q table).trans
    (keepsAwake_wakeup p
      ((reparent initproc q table q).parent.map .proc) (some q) _)) awake
  unfold Scheduling.exit
  by_cases same : p = q
  · subst same
    simpa using kept.2
  · rw [Function.update_of_ne same]
    exact kept.2

/-- A timer interrupt in user mode charges its process unless it is killed. -/
def Charges (kernel : Kernel n cpus) (label : Fin cpus × Op n) (p : Fin n) :
    Prop :=
  label.2 = .userTick ∧ kernel.cpu label.1 = some p ∧
    (kernel.proc p).killed = false

instance (kernel : Kernel n cpus) (label : Fin cpus × Op n) (p : Fin n) :
    Decidable (Charges kernel label p) :=
  inferInstanceAs (Decidable (_ ∧ _ ∧ _))

/-- An entry keeps its accumulator when another entry, or another field of it,
is written. -/
theorem accumulator_update
    (table : Table n) (p q : Fin n) {entry : Proc n}
    (same : entry.accumulator = (table q).accumulator) :
    (Function.update table q entry p).accumulator =
      (table p).accumulator := by
  by_cases equal : p = q
  · subst equal
    rw [Function.update_self]
    exact same
  · rw [Function.update_of_ne equal]

theorem accumulator_fork
    (kernel : Kernel n cpus) (memory : Memory) (q p : Fin n)
    (allocated : (kernel.proc p).state ≠ .unused) :
    ((fork memory q kernel).proc p).accumulator =
      (kernel.proc p).accumulator := by
  rcases fork_cases memory q kernel with same | ⟨np, unused, freed | forked⟩
  · rw [same]
  all_goals
    have other : p ≠ np := by
      rintro rfl
      exact allocated unused
  · rw [freed]
    simp [Kernel.allocated, Function.update_of_ne other]
  · rw [forked]
    simp [Kernel.allocated, Function.update_of_ne other]

/-- The charge of `usertrap`, and no other operation of a running process,
changes the accumulator of a process that is awake. -/
theorem accumulator_runningOp
    {kernel next : Kernel n cpus} {c : Fin cpus} {q : Fin n} {op : Op n}
    (busy : kernel.cpu c = some q)
    (running : (kernel.proc q).state = .running)
    (taken : runningOp kernel c q op = some next)
    {p : Fin n} (awake : (kernel.proc p).awake) :
    (next.proc p).accumulator = (kernel.proc p).accumulator +
      if Charges kernel (c, op) p then (kernel.proc p).psPriority else 0 := by
  have exits : ∀ status, exitOp kernel c q status = some next →
      (next.proc p).accumulator = (kernel.proc p).accumulator := by
    intro status exited
    unfold exitOp at exited
    split at exited
    · cases exited
    · cases exited
      exact accumulator_exit awake.2 status kernel.initproc q
  cases op with
  | schedule => cases taken
  | userTick =>
      simp only [Charges, busy, Option.some.injEq, true_and]
      simp only [runningOp] at taken
      split at taken
      · rename_i killed
        rw [if_neg, exits _ taken, add_zero]
        rintro ⟨rfl, alive⟩
        rw [killed] at alive
        cases alive
      · rename_i alive
        cases taken
        have charged : charge q kernel.proc = Function.update kernel.proc q
            { kernel.proc q with
              accumulator := (kernel.proc q).accumulator +
                (kernel.proc q).psPriority } := by
          rw [charge, if_pos running]
        by_cases same : p = q
        · subst same
          simp [Kernel.switched, yield, charged, alive]
        · rw [if_neg (fun charges => same charges.1.symm)]
          simp [Kernel.switched, yield, charged, Function.update_of_ne same]
  | kernelTick =>
      rw [if_neg (by simp [Charges]), add_zero]
      simp only [runningOp, running, if_true] at taken
      cases taken
      exact accumulator_update _ p q rfl
  | fork memory =>
      rw [if_neg (by simp [Charges]), add_zero]
      cases taken
      exact accumulator_fork kernel memory q p awake.1
  | sleep chan =>
      rw [if_neg (by simp [Charges]), add_zero]
      cases taken
      exact accumulator_update _ p q rfl
  | wakeup chan =>
      rw [if_neg (by simp [Charges]), add_zero]
      cases taken
      exact (keepsAwake_wakeup p (some chan) (some q) kernel.proc awake.2).2
  | exit status =>
      rw [if_neg (by simp [Charges]), add_zero]
      exact exits status taken
  | wait addr copyout =>
      rw [if_neg (by simp [Charges]), add_zero]
      simp only [runningOp] at taken
      split at taken
      · cases taken
        exact accumulator_update _ p _ rfl
      · cases taken
        rfl
      · cases taken
        rfl
      · cases taken
        exact accumulator_update _ p q rfl
  | kill pid =>
      rw [if_neg (by simp [Charges]), add_zero]
      cases taken
      show ((kill pid kernel.proc).2 p).accumulator = _
      unfold Scheduling.kill
      split
      · rfl
      · exact accumulator_update _ p _ rfl
  | setPsPriority priority =>
      rw [if_neg (by simp [Charges]), add_zero]
      cases taken
      show ((setPsPriority priority q kernel.proc).2 p).accumulator = _
      unfold Scheduling.setPsPriority
      split
      · rfl
      · exact accumulator_update _ p q rfl

theorem accumulator_exec
    {kernel next : Kernel n cpus} (sound : Sound kernel)
    {c : Fin cpus} {op : Op n} (taken : exec kernel c op = some next)
    {p : Fin n} (awake : (kernel.proc p).awake) :
    (next.proc p).accumulator = (kernel.proc p).accumulator +
      if Charges kernel (c, op) p then (kernel.proc p).psPriority else 0 := by
  unfold exec at taken
  split at taken
  · rename_i q busy
    exact accumulator_runningOp busy (sound.running c q busy) taken awake
  · rename_i idle
    rw [if_neg (by simp [Charges, idle]), add_zero]
    split at taken
    · split at taken
      · cases taken
        rfl
      · cases taken
        exact accumulator_update _ p _ rfl
    · cases taken
      exact (keepsAwake_wakeup p _ none kernel.proc awake.2).2
    · cases taken

/-! ## Who is preempted -/

/-- A timer interrupt preempts the process of its processor, unless it comes in
user mode and the process is killed. -/
theorem preempts_iff
    {kernel next : Kernel n cpus} (sound : Sound kernel)
    {label : Fin cpus × Op n}
    (taken : exec kernel label.1 label.2 = some next) (p : Fin n) :
    Preempts ⟨kernel, label, next⟩ p ↔
      Charges kernel label p ∨
        label.2 = .kernelTick ∧ kernel.cpu label.1 = some p := by
  rcases label with ⟨c, op⟩
  constructor
  · rintro ⟨tick, busy, running, runnable⟩
    simp only at tick busy running runnable
    cases op <;> cases tick
    · left
      refine ⟨rfl, busy, ?_⟩
      by_contra killed
      simp only [exec, busy, runningOp, Bool.not_eq_false] at taken killed
      rw [if_pos killed, exitOp] at taken
      split at taken
      · cases taken
      · cases taken
        simp [Kernel.switched, Scheduling.exit] at runnable
    · exact .inr ⟨rfl, busy⟩
  · rintro (⟨rfl, busy, alive⟩ | ⟨rfl, busy⟩)
    · refine ⟨rfl, busy, sound.running c p busy, ?_⟩
      simp only [exec, busy, runningOp, alive] at taken
      cases taken
      simp [Kernel.switched, yield]
    · refine ⟨rfl, busy, sound.running c p busy, ?_⟩
      simp only [exec, busy, runningOp, sound.running c p busy,
        if_true] at taken
      cases taken
      simp [Kernel.switched, yield]

/-! ## Stretches without kernel-mode preemptions -/

/-- A step that is no timer interrupt in kernel mode charges exactly what it
preempts. -/
theorem accumulator_step
    (step : KernelStep n cpus) (sound : Sound step.before)
    (taken : exec step.before step.label.1 step.label.2 = some step.after)
    (userMode : step.label.2 ≠ .kernelTick)
    {p : Fin n} (awake : (step.before.proc p).awake) :
    (step.after.proc p).accumulator =
      (step.before.proc p).accumulator + preemptedPriority p step := by
  have same : Preempts step p ↔ Charges step.before step.label p := by
    rw [preempts_iff sound taken]
    simp [userMode]
  rw [accumulator_exec sound taken awake, preemptedPriority,
    if_congr same rfl rfl]

theorem growth_of_userMode
    {first last : Kernel n cpus} {steps : List (KernelStep n cpus)}
    (stretch : (kernelSystem n cpus).Stretch first steps last)
    (reached : (kernelSystem n cpus).Reachable first)
    (userMode : ∀ step ∈ steps, step.label.2 ≠ .kernelTick)
    {p : Fin n} (awake : AwakeThroughout first steps p) :
    (last.proc p).accumulator =
      (first.proc p).accumulator +
        (steps.map (preemptedPriority p)).sum := by
  induction stretch with
  | nil => simp
  | @cons kernel next last label rest taken _ induction =>
      rcases awake with ⟨awake, later⟩
      rcases List.forall_mem_cons.mp userMode with ⟨here, userMode⟩
      rcases List.forall_mem_cons.mp later with ⟨awakeNext, later⟩
      have charged := accumulator_step ⟨kernel, label, next⟩
        (sound_of_reachable reached) taken here awake
      rw [induction (reached.step taken) userMode ⟨awakeNext, later⟩,
        List.map_cons, List.sum_cons, ← add_assoc]
      exact congrArg (· + _) charged

/-- A timer interrupt in kernel mode preempts a process without a charge. -/
theorem kernelTick_not_charged
    {kernel next : Kernel n cpus} (sound : Sound kernel)
    {label : Fin cpus × Op n}
    (taken : exec kernel label.1 label.2 = some next)
    (kernelMode : label.2 = .kernelTick) :
    ∃ p, Preempts ⟨kernel, label, next⟩ p ∧
      (next.proc p).accumulator ≠
        (kernel.proc p).accumulator + (kernel.proc p).psPriority := by
  rcases label with ⟨c, op⟩
  simp only at kernelMode taken
  subst kernelMode
  cases busy : kernel.cpu c with
  | none => simp [exec, busy] at taken
  | some p =>
      have running := sound.running c p busy
      have awake : (kernel.proc p).awake := by
        constructor
        · simp [running]
        · simp [running]
      refine ⟨p, (preempts_iff sound taken p).mpr (.inr ⟨rfl, busy⟩), ?_⟩
      have kept := accumulator_exec sound taken awake
      rw [if_neg (by simp [Charges]), add_zero] at kept
      have positive := (sound.legal.priority p awake.1).1
      omega

/--
A stretch of a run keeps the charge law exactly when no timer interrupt of it
arrives in kernel mode.
-/
theorem chargeLaw_iff
    {first last : Kernel n cpus} {steps : List (KernelStep n cpus)}
    (reached : (kernelSystem n cpus).Reachable first)
    (stretch : (kernelSystem n cpus).Stretch first steps last) :
    ChargeLaw first steps last ↔
      ∀ step ∈ steps, step.label.2 ≠ .kernelTick := by
  have visited := stretch.reachable_before reached
  constructor
  · intro law step member kernelMode
    rcases visited step member with ⟨reachedStep, taken⟩
    rcases kernelTick_not_charged (sound_of_reachable reachedStep) taken
      kernelMode with ⟨p, preempted, unpaid⟩
    exact unpaid (law.preemption step member p preempted)
  · intro userMode
    constructor
    case preemption =>
      intro step member p preempted
      rcases visited step member with ⟨reachedStep, taken⟩
      have awake : (step.before.proc p).awake := by
        constructor
        · simp [preempted.2.2.1]
        · simp [preempted.2.2.1]
      rw [accumulator_step step (sound_of_reachable reachedStep) taken
        (userMode step member) awake, preemptedPriority, if_pos preempted]
    case growth =>
      intro p awake
      exact growth_of_userMode stretch reached userMode awake

/-- A process that is preempted in user mode is charged. -/
theorem chargeLaw_iff_childCharged :
    ChargeLaw childRuns [⟨childRuns, (0, .userTick), childCharged⟩]
      childCharged :=
  (chargeLaw_iff reachable_childRuns.of_guarded
    (.cons (Option.some_get _).symm .nil)).mpr (by simp)

/-- The second process is preempted in kernel mode. -/
def childUncharged : Kernel 2 1 :=
  (exec childRuns onlyCpu .kernelTick).get (by decide)

/-- A process that is preempted in kernel mode keeps its accumulator. -/
theorem kernelTick_breaks_chargeLaw :
    (kernelSystem 2 1).Reachable childRuns ∧
      (kernelSystem 2 1).Stretch childRuns
        [⟨childRuns, (0, .kernelTick), childUncharged⟩] childUncharged ∧
      ¬ ChargeLaw childRuns
        [⟨childRuns, (0, .kernelTick), childUncharged⟩] childUncharged := by
  refine ⟨reachable_childRuns.of_guarded,
    .cons (Option.some_get _).symm .nil, ?_⟩
  intro law
  have paid := law.growth 1 ⟨by decide, by simp; decide⟩
  exact absurd paid (by decide)

end OSCourse.Scheduling
