import Mathlib.Algebra.Order.Group.Int
import Mathlib.Algebra.Order.Group.Abs
import OSCourse.Scheduling.Accumulator

/-!
# The spread of the accumulators on one processor

On one processor the accumulators of the active processes stay within one
maximal quantum of each other.  The bound is carried by a second fact: the
RUNNING process has the smallest accumulator, since the scheduler picked it and
every process that becomes RUNNABLE starts from the minimum.
-/

namespace OSCourse.Scheduling

open OSCourse.Library.TransitionSystem

variable {n cpus : Nat}

/-! ## The table invariant -/

/-- The largest priority. -/
def maxPriority : Int := 10

/-- Accumulators are not negative and priorities lie between 1 and 10. -/
structure Legal (table : Table n) : Prop where
  nonneg : NonNeg table
  priority : ∀ p, (table p).state ≠ .unused →
    1 ≤ (table p).psPriority ∧ (table p).psPriority ≤ maxPriority

/--
The table of a processor that runs `current`: at most one process is RUNNING,
it has the smallest accumulator of the active ones, and no two active processes
are more than a maximal quantum apart.
-/
structure Fair (table : Table n) (current : Option (Fin n)) : Prop where
  legal : Legal table
  running : ∀ p, (table p).state = .running ↔ current = some p
  spread : ∀ p q, (table p).active → (table q).active →
    (table p).accumulator ≤ (table q).accumulator + maxPriority
  least : ∀ p, current = some p → ∀ q, (table q).active →
    (table p).accumulator ≤ (table q).accumulator

theorem Legal.update
    {table : Table n} (legal : Legal table) (p : Fin n) {entry : Proc n}
    (nonneg : 0 ≤ entry.accumulator)
    (priority : entry.state ≠ .unused →
      1 ≤ entry.psPriority ∧ entry.psPriority ≤ maxPriority) :
    Legal (Function.update table p entry) := by
  refine ⟨legal.nonneg.update p nonneg, ?_⟩
  intro q allocated
  by_cases same : q = p
  · subst same
    simp only [Function.update_self] at allocated ⊢
    exact priority allocated
  · simp only [Function.update_of_ne same] at allocated ⊢
    exact legal.priority q allocated

theorem Proc.not_active
    {p : Proc n} (notRunnable : p.state ≠ .runnable)
    (notRunning : p.state ≠ .running) :
    ¬ p.active := by
  rintro (runnable | running)
  · exact notRunnable runnable
  · exact notRunning running

/-- A process leaves the active ones, or an inactive entry changes. -/
theorem Fair.deactivate
    {table : Table n} {current : Option (Fin n)} (fair : Fair table current)
    (p : Fin n) {entry : Proc n} {next : Option (Fin n)}
    (inactive : ¬ entry.active)
    (nonneg : 0 ≤ entry.accumulator)
    (priority : entry.state ≠ .unused →
      1 ≤ entry.psPriority ∧ entry.psPriority ≤ maxPriority)
    (others : ∀ q, next = some q ↔ q ≠ p ∧ current = some q) :
    Fair (Function.update table p entry) next := by
  have before : ∀ q, (Function.update table p entry q).active →
      q ≠ p ∧ (table q).active := by
    intro q active
    by_cases same : q = p
    · subst same
      rw [Function.update_self] at active
      exact absurd active inactive
    · rw [Function.update_of_ne same] at active
      exact ⟨same, active⟩
  refine ⟨fair.legal.update p nonneg priority, ?_, ?_, ?_⟩
  · intro q
    rw [others q]
    by_cases same : q = p
    · subst same
      rw [Function.update_self]
      constructor
      · intro running
        exact absurd (Or.inr running) inactive
      · rintro ⟨different, -⟩
        exact absurd rfl different
    · rw [Function.update_of_ne same, fair.running q]
      simp [same]
  · intro q r activeQ activeR
    rcases before q activeQ with ⟨otherQ, wasQ⟩
    rcases before r activeR with ⟨otherR, wasR⟩
    rw [Function.update_of_ne otherQ, Function.update_of_ne otherR]
    exact fair.spread q r wasQ wasR
  · intro q running r active
    rcases before r active with ⟨otherR, wasR⟩
    rcases (others q).mp running with ⟨otherQ, wasRunning⟩
    rw [Function.update_of_ne otherQ, Function.update_of_ne otherR]
    exact fair.least q wasRunning r wasR

/-- An entry keeps its state and its accumulator. -/
theorem Fair.touch
    {table : Table n} {current : Option (Fin n)} (fair : Fair table current)
    (p : Fin n) {entry : Proc n}
    (state : entry.state = (table p).state)
    (accumulator : entry.accumulator = (table p).accumulator)
    (priority : entry.state ≠ .unused →
      1 ≤ entry.psPriority ∧ entry.psPriority ≤ maxPriority) :
    Fair (Function.update table p entry) current := by
  have sameState : ∀ q, (Function.update table p entry q).state =
      (table q).state := by
    intro q
    by_cases same : q = p
    · subst same
      simpa using state
    · simp [same]
  have sameAccumulator : ∀ q,
      (Function.update table p entry q).accumulator =
        (table q).accumulator := by
    intro q
    by_cases same : q = p
    · subst same
      simpa using accumulator
    · simp [same]
  have sameActive : ∀ q, (Function.update table p entry q).active ↔
      (table q).active := by
    intro q
    simp only [Proc.active, sameState]
  refine ⟨fair.legal.update p ?_ priority, ?_, ?_, ?_⟩
  · rw [accumulator]
    exact fair.legal.nonneg p
  · intro q
    rw [sameState q]
    exact fair.running q
  · intro q r activeQ activeR
    rw [sameAccumulator, sameAccumulator]
    exact fair.spread q r ((sameActive q).mp activeQ)
      ((sameActive r).mp activeR)
  · intro q running r active
    rw [sameAccumulator, sameAccumulator]
    exact fair.least q running r ((sameActive r).mp active)

/-- An inactive entry becomes RUNNABLE with the minimum of the table. -/
theorem Fair.activate
    {table : Table n} {current : Option (Fin n)} (fair : Fair table current)
    {p : Fin n} (inactive : ¬ (table p).active) {entry : Proc n}
    (runnable : entry.state = .runnable)
    (least : IsLeastOrZero table (fun _ => True) entry.accumulator)
    (priority : 1 ≤ entry.psPriority ∧ entry.psPriority ≤ maxPriority) :
    Fair (Function.update table p entry) current := by
  have nonneg := least.nonneg fair.legal.nonneg
  have quantum : (0 : Int) ≤ maxPriority := by decide
  have upper : ∀ q, (table q).active →
      (table q).accumulator ≤ entry.accumulator + maxPriority := by
    intro q active
    rcases least with ⟨⟨r, -, activeR, value⟩, -⟩ | ⟨noneActive, -⟩
    · rw [← value]
      exact fair.spread q r active activeR
    · exact absurd active (noneActive q trivial)
  refine ⟨fair.legal.update p nonneg (fun _ => priority), ?_, ?_, ?_⟩
  · intro q
    by_cases same : q = p
    · subst same
      rw [Function.update_self, runnable, ← fair.running q]
      constructor
      · intro impossible
        cases impossible
      · intro running
        exact absurd (Or.inr running) inactive
    · rw [Function.update_of_ne same]
      exact fair.running q
  · intro q r activeQ activeR
    by_cases sameQ : q = p
    · subst sameQ
      by_cases sameR : r = q
      · subst sameR
        omega
      · rw [Function.update_self, Function.update_of_ne sameR]
        rw [Function.update_of_ne sameR] at activeR
        have bound := least.le trivial activeR
        omega
    · rw [Function.update_of_ne sameQ] at activeQ ⊢
      by_cases sameR : r = p
      · subst sameR
        rw [Function.update_self]
        exact upper q activeQ
      · rw [Function.update_of_ne sameR] at activeR ⊢
        exact fair.spread q r activeQ activeR
  · intro q running r active
    have activeQ : (table q).active :=
      Or.inr ((fair.running q).mpr running)
    have otherQ : q ≠ p := by
      rintro rfl
      exact inactive activeQ
    rw [Function.update_of_ne otherQ]
    by_cases sameR : r = p
    · subst sameR
      rw [Function.update_self]
      rcases least with ⟨⟨s, -, activeS, value⟩, -⟩ | ⟨noneActive, -⟩
      · rw [← value]
        exact fair.least q running s activeS
      · exact absurd activeQ (noneActive q trivial)
    · rw [Function.update_of_ne sameR] at active ⊢
      exact fair.least q running r active

/-! ## Operations on the table -/

theorem Fair.wakeupStep
    {table : Table n} {current : Option (Fin n)} (fair : Fair table current)
    (chan : Option (Chan n)) (me : Option (Fin n)) (p : Fin n) :
    Fair (wakeupStep chan me table p) current := by
  unfold Scheduling.wakeupStep
  split
  · exact fair
  · split
    · rename_i asleep
      have inactive : ¬ (table p).active :=
        Proc.not_active (by simp [asleep.1]) (by simp [asleep.1])
      exact fair.activate inactive rfl
        (getMinAccumulator_isLeast_all fair.legal.nonneg inactive)
        (fair.legal.priority p (by simp [asleep.1]))
    · exact fair

theorem Fair.wakeup
    {table : Table n} {current : Option (Fin n)} (fair : Fair table current)
    (chan : Option (Chan n)) (me : Option (Fin n)) :
    Fair (wakeup chan me table) current := by
  unfold Scheduling.wakeup
  generalize List.finRange n = entries
  induction entries generalizing table with
  | nil => exact fair
  | cons p rest ih => exact ih (fair.wakeupStep chan me p)

theorem Fair.reparent
    {table : Table n} {current : Option (Fin n)} (fair : Fair table current)
    (initproc : Option (Fin n)) (p : Fin n) :
    Fair (reparent initproc p table) current := by
  unfold Scheduling.reparent
  generalize List.finRange n = entries
  induction entries generalizing table with
  | nil => exact fair
  | cons pp rest ih =>
      apply ih
      unfold reparentStep
      split
      · apply Fair.wakeup
        exact fair.touch pp rfl rfl (fair.legal.priority pp)
      · exact fair

/-- A process that stops being active gives the processor back. -/
theorem Fair.leave
    {table : Table n} {p : Fin n} (fair : Fair table (some p))
    {entry : Proc n} (inactive : ¬ entry.active)
    (accumulator : entry.accumulator = (table p).accumulator)
    (priority : entry.psPriority = (table p).psPriority) :
    Fair (Function.update table p entry) none := by
  refine fair.deactivate p inactive ?_ ?_ ?_
  · rw [accumulator]
    exact fair.legal.nonneg p
  · intro _
    rw [priority]
    apply fair.legal.priority p
    rw [(fair.running p).mpr rfl]
    decide
  · intro q
    constructor
    · intro impossible
      cases impossible
    · rintro ⟨different, same⟩
      exact absurd (Option.some.inj same).symm different

theorem Fair.sleep
    {table : Table n} {p : Fin n} (fair : Fair table (some p))
    (chan : Chan n) :
    Fair (sleep chan p table) none :=
  fair.leave (Proc.not_active (by simp) (by simp)) rfl rfl

theorem Fair.exit
    {table : Table n} {p : Fin n} (fair : Fair table (some p))
    (status : Int) (initproc : Option (Fin n)) :
    Fair (exit status initproc p table) none :=
  ((fair.reparent initproc p).wakeup _ _).leave
    (Proc.not_active (by simp) (by simp)) rfl rfl

/--
The charged process had the smallest accumulator and gets at most a maximal
quantum, so it stays within reach of the others.
-/
theorem Fair.requeue
    {table : Table n} {p : Fin n} (fair : Fair table (some p))
    {entry : Proc n} (runnable : entry.state = .runnable)
    (lower : (table p).accumulator ≤ entry.accumulator)
    (upper : entry.accumulator ≤ (table p).accumulator + maxPriority)
    (priority : entry.psPriority = (table p).psPriority) :
    Fair (Function.update table p entry) none := by
  have active : (table p).active := Or.inr ((fair.running p).mpr rfl)
  have quantum : (0 : Int) ≤ maxPriority := by decide
  refine ⟨fair.legal.update p ?_ ?_, ?_, ?_, ?_⟩
  · exact (fair.legal.nonneg p).trans lower
  · intro _
    rw [priority]
    apply fair.legal.priority p
    rw [(fair.running p).mpr rfl]
    decide
  · intro q
    by_cases same : q = p
    · subst same
      rw [Function.update_self, runnable]
      simp
    · rw [Function.update_of_ne same, fair.running q]
      constructor
      · intro other
        exact absurd (Option.some.inj other).symm same
      · intro impossible
        cases impossible
  · intro q r activeQ activeR
    by_cases sameQ : q = p
    · subst sameQ
      by_cases sameR : r = q
      · subst sameR
        omega
      · rw [Function.update_self, Function.update_of_ne sameR]
        rw [Function.update_of_ne sameR] at activeR
        have bound := fair.least q rfl r activeR
        omega
    · rw [Function.update_of_ne sameQ] at activeQ ⊢
      by_cases sameR : r = p
      · subst sameR
        rw [Function.update_self]
        have bound := fair.spread q r activeQ active
        omega
      · rw [Function.update_of_ne sameR] at activeR ⊢
        exact fair.spread q r activeQ activeR
  · intro q impossible
    cases impossible

theorem Fair.yield
    {table : Table n} {p : Fin n} (fair : Fair table (some p)) :
    Fair (yield p table) none := by
  refine fair.requeue rfl (Int.le_refl _) ?_ rfl
  change (table p).accumulator ≤ (table p).accumulator + maxPriority
  have quantum : (0 : Int) ≤ maxPriority := by decide
  omega

theorem Fair.charge_yield
    {table : Table n} {p : Fin n} (fair : Fair table (some p)) :
    Fair (Scheduling.yield p (charge p table)) none := by
  have isRunning : (table p).state = .running := (fair.running p).mpr rfl
  rcases fair.legal.priority p (by rw [isRunning]; decide) with
    ⟨positive, bounded⟩
  rw [charge, if_pos isRunning, Scheduling.yield, Function.update_idem]
  refine fair.requeue rfl ?_ ?_ ?_
  · simp only [Function.update_self]
    omega
  · simp only [Function.update_self]
    omega
  · simp

theorem Fair.dispatch
    {table : Table n} (fair : Fair table none) {p : Fin n}
    (chosen : scan table = some p) :
    Fair (dispatch p table) (some p) := by
  have found := scanSoFar_scan table
  rw [chosen] at found
  rcases found with ⟨runnable, least⟩
  have idle : ∀ q, (table q).state ≠ .running := by
    intro q running
    exact absurd ((fair.running q).mp running) (by simp)
  have sameActive : ∀ q, (Scheduling.dispatch p table q).active ↔
      (table q).active := by
    intro q
    by_cases same : q = p
    · subst same
      simp [Scheduling.dispatch, Proc.active, runnable]
    · simp [Scheduling.dispatch, same, Proc.active]
  have sameAccumulator : ∀ q, (Scheduling.dispatch p table q).accumulator =
      (table q).accumulator := by
    intro q
    by_cases same : q = p
    · subst same
      simp [Scheduling.dispatch]
    · simp [Scheduling.dispatch, same]
  refine ⟨fair.legal.update p (fair.legal.nonneg p) ?_, ?_, ?_, ?_⟩
  · intro _
    exact fair.legal.priority p (by rw [runnable]; decide)
  · intro q
    by_cases same : q = p
    · subst same
      simp [Scheduling.dispatch]
    · simp only [Scheduling.dispatch, Function.update_of_ne same,
        Option.some.injEq]
      constructor
      · intro running
        exact absurd running (idle q)
      · intro equal
        exact absurd equal.symm same
  · intro q r activeQ activeR
    rw [sameAccumulator, sameAccumulator]
    exact fair.spread q r ((sameActive q).mp activeQ)
      ((sameActive r).mp activeR)
  · intro q current r active
    cases current
    rw [sameAccumulator, sameAccumulator]
    rcases (sameActive r).mp active with runnableR | runningR
    · exact least r trivial runnableR
    · exact absurd runningR (idle r)

/-! ## Allocation -/

/-- The kernel once a slot of the table has been filled or freed. -/
def Kernel.allocated (kernel : Kernel n cpus) (p : Fin n) (entry : Proc n) :
    Kernel n cpus :=
  { kernel with
    nextpid := kernel.nextpid + 1
    proc := Function.update kernel.proc p entry }

/-- What `allocproc` can do. -/
theorem allocproc_cases
    (memory : Memory) (kernel : Kernel n cpus) :
    allocproc memory kernel = (none, kernel) ∨
      ∃ p, (kernel.proc p).state = .unused ∧
        (allocproc memory kernel =
            (some p, kernel.allocated p (freshProc kernel p)) ∨
          allocproc memory kernel =
            (none,
              kernel.allocated p (freeproc (freshProc kernel p)))) := by
  unfold allocproc
  split
  · exact Or.inl rfl
  · rename_i p found
    right
    refine ⟨p, by simpa using List.find?_some found, ?_⟩
    dsimp only
    split
    · exact Or.inl rfl
    · exact Or.inr rfl

/-- The entry a successful `fork` by `p` leaves. -/
def forkedProc (kernel : Kernel n cpus) (p np : Fin n) : Proc n :=
  { freshProc kernel np with parent := some p, state := .runnable }

/-- What `fork` can do: nothing, a freed entry, or a new RUNNABLE process. -/
theorem fork_cases
    (memory : Memory) (p : Fin n) (kernel : Kernel n cpus) :
    fork memory p kernel = kernel ∨
      ∃ np, (kernel.proc np).state = .unused ∧
        (fork memory p kernel =
            kernel.allocated np (freeproc (freshProc kernel np)) ∨
          fork memory p kernel =
            kernel.allocated np (forkedProc kernel p np)) := by
  rcases allocproc_cases memory kernel with
    failed | ⟨np, unused, allocated | freed⟩
  · left
    rw [fork, failed]
  · right
    refine ⟨np, unused, ?_⟩
    rw [fork, allocated]
    dsimp only
    split
    · right
      simp [Kernel.allocated, forkedProc]
    · left
      simp [Kernel.allocated]
  · right
    refine ⟨np, unused, Or.inl ?_⟩
    rw [fork, freed]

theorem Fair.fork
    {kernel : Kernel n cpus} {current : Option (Fin n)}
    (fair : Fair kernel.proc current) (memory : Memory) (p : Fin n) :
    Fair (fork memory p kernel).proc current := by
  rcases fork_cases memory p kernel with
    same | ⟨np, unused, freed | forked⟩
  · rw [same]
    exact fair
  · have inactive : ¬ (kernel.proc np).active :=
      Proc.not_active (by simp [unused]) (by simp [unused])
    have least :=
      getMinAccumulator_isLeast_all fair.legal.nonneg inactive
    rw [freed]
    refine fair.deactivate np
      (Proc.not_active (by simp [freeproc]) (by simp [freeproc]))
      (least.nonneg fair.legal.nonneg) (by simp [freeproc]) ?_
    intro q
    constructor
    · intro isCurrent
      refine ⟨?_, isCurrent⟩
      rintro rfl
      exact inactive (Or.inr ((fair.running q).mpr isCurrent))
    · rintro ⟨-, isCurrent⟩
      exact isCurrent
  · have inactive : ¬ (kernel.proc np).active :=
      Proc.not_active (by simp [unused]) (by simp [unused])
    rw [forked]
    exact fair.activate inactive rfl
      (getMinAccumulator_isLeast_all fair.legal.nonneg inactive)
      (by simp [forkedProc, freshProc, maxPriority])

/-! ## Runs -/

/-- A `kill` that does not hit a sleeping process. -/
def SparesSleepers (kernel : Kernel n cpus) (label : Fin cpus × Op n) :
    Prop :=
  ∀ pid, label.2 = .kill pid → ∀ p,
    (List.finRange n).find? (fun p => (kernel.proc p).pid = pid) = some p →
      (kernel.proc p).state ≠ .sleeping

theorem Fair.kill
    {table : Table n} {current : Option (Fin n)} (fair : Fair table current)
    {pid : Int}
    (spared : ∀ p,
      (List.finRange n).find? (fun p => (table p).pid = pid) = some p →
        (table p).state ≠ .sleeping) :
    Fair (kill pid table).2 current := by
  unfold Scheduling.kill
  split
  · exact fair
  · rename_i p found
    have awake := spared p found
    refine fair.touch p ?_ rfl ?_
    · simp [awake]
    · intro allocated
      apply fair.legal.priority p
      simpa [awake] using allocated

theorem Fair.setPsPriority
    {table : Table n} {current : Option (Fin n)} (fair : Fair table current)
    (priority : Int) (p : Fin n) :
    Fair (setPsPriority priority p table).2 current := by
  unfold Scheduling.setPsPriority
  split
  · exact fair
  · rename_i valid
    have bounds : 1 ≤ priority ∧ priority ≤ maxPriority := by
      simp only [maxPriority]
      omega
    exact fair.touch p rfl rfl (fun _ => bounds)

theorem Fair.reap
    {table : Table n} {current : Option (Fin n)} (fair : Fair table current)
    {child : Fin n} (zombie : (table child).state = .zombie) :
    Fair (Function.update table child (freeproc (table child))) current := by
  refine fair.deactivate child
    (Proc.not_active (by simp [freeproc]) (by simp [freeproc]))
    (fair.legal.nonneg child) (by simp [freeproc]) ?_
  intro q
  constructor
  · intro isCurrent
    refine ⟨?_, isCurrent⟩
    rintro rfl
    have running := (fair.running q).mpr isCurrent
    rw [zombie] at running
    cases running
  · rintro ⟨-, isCurrent⟩
    exact isCurrent

theorem waitScan_reaped
    {addr : BitVec 64} {copyout : Bool} {p child : Fin n} {table : Table n}
    (reaped : waitScan addr copyout p table = .reaped child) :
    (table child).state = .zombie := by
  unfold waitScan at reaped
  split at reaped
  · rename_i found search
    split at reaped
    · cases reaped
    · cases reaped
      have matched := List.find?_some search
      simp only [decide_eq_true_eq] at matched
      exact matched.2
  · split at reaped <;> cases reaped

/-- The one processor. -/
def onlyCpu : Fin 1 := ⟨0, Nat.one_pos⟩

/-- The process on the one processor. -/
abbrev Kernel.current (kernel : Kernel n 1) : Option (Fin n) :=
  kernel.cpu onlyCpu

theorem Kernel.current_switched
    (kernel : Kernel n 1) (c : Fin 1) (table : Table n) :
    (kernel.switched c table).current = none := by
  have only : c = onlyCpu := Subsingleton.elim c onlyCpu
  subst only
  simp [Kernel.current, Kernel.switched]

theorem Fair.exitOp
    {kernel next : Kernel n 1} {c : Fin 1} {p : Fin n} {status : Int}
    (fair : Fair kernel.proc (some p))
    (taken : exitOp kernel c p status = some next) :
    Fair next.proc next.current := by
  unfold Scheduling.exitOp at taken
  split at taken
  · contradiction
  · cases taken
    rw [Kernel.current_switched]
    exact fair.exit status kernel.initproc

/-- Every operation of the running process keeps the table fair. -/
theorem Fair.runningOp
    {kernel next : Kernel n 1} {c : Fin 1} {p : Fin n} {op : Op n}
    (fair : Fair kernel.proc kernel.current)
    (busy : kernel.cpu c = some p)
    (spared : SparesSleepers kernel (c, op))
    (taken : runningOp kernel c p op = some next) :
    Fair next.proc next.current := by
  have only : c = onlyCpu := Subsingleton.elim c onlyCpu
  have current : kernel.current = some p := by
    rw [← busy, only]
  rw [current] at fair
  cases op with
  | schedule => cases taken
  | userTick =>
      rw [Scheduling.runningOp] at taken
      split at taken
      · exact fair.exitOp taken
      · cases taken
        rw [Kernel.current_switched]
        exact fair.charge_yield
  | kernelTick =>
      rw [Scheduling.runningOp] at taken
      split at taken
      · cases taken
        rw [Kernel.current_switched]
        exact fair.yield
      · cases taken
        rw [current]
        exact fair
  | fork memory =>
      cases taken
      have sameCpu : (Scheduling.fork memory p kernel).current =
          kernel.current := by
        rcases fork_cases memory p kernel with
          same | ⟨np, -, freed | forked⟩
        · rw [same]
        · rw [freed]
          rfl
        · rw [forked]
          rfl
      rw [sameCpu, current]
      exact fair.fork memory p
  | sleep chan =>
      cases taken
      rw [Kernel.current_switched]
      exact fair.sleep chan
  | wakeup chan =>
      cases taken
      change Fair _ kernel.current
      rw [current]
      exact fair.wakeup _ _
  | exit status => exact fair.exitOp taken
  | wait addr copyout =>
      rw [Scheduling.runningOp] at taken
      split at taken
      · rename_i child reaped
        cases taken
        change Fair _ kernel.current
        rw [current]
        exact fair.reap (waitScan_reaped reaped)
      · cases taken
        rw [current]
        exact fair
      · cases taken
        rw [current]
        exact fair
      · cases taken
        rw [Kernel.current_switched]
        exact fair.sleep _
  | kill pid =>
      cases taken
      change Fair _ kernel.current
      rw [current]
      exact fair.kill (spared pid rfl)
  | setPsPriority priority =>
      cases taken
      change Fair _ kernel.current
      rw [current]
      exact fair.setPsPriority priority p

/-- Every step on the one processor keeps the table fair. -/
theorem Fair.exec
    {kernel next : Kernel n 1} {c : Fin 1} {op : Op n}
    (fair : Fair kernel.proc kernel.current)
    (spared : SparesSleepers kernel (c, op))
    (taken : exec kernel c op = some next) :
    Fair next.proc next.current := by
  have only : c = onlyCpu := Subsingleton.elim c onlyCpu
  unfold Scheduling.exec at taken
  split at taken
  · rename_i p busy
    exact fair.runningOp busy spared taken
  · rename_i idle
    have current : kernel.current = none := by
      rw [← idle, only]
    split at taken
    · split at taken
      · cases taken
        exact fair
      · rename_i p chosen
        cases taken
        subst only
        rw [current] at fair
        simpa [Kernel.current] using fair.dispatch chosen
    · cases taken
      exact fair.wakeup _ _
    · contradiction

theorem fair_userinit
    {kernel : Kernel n 1} (started : userinit = some kernel) :
    Fair kernel.proc kernel.current := by
  have initial : Fair (procinit : Kernel n 1).proc none := by
    refine ⟨⟨fun _ => Int.le_refl 0, ?_⟩, ?_, ?_, ?_⟩
    · intro p allocated
      exact absurd rfl allocated
    · simp [procinit]
    · intro p q active
      exact absurd active
        (Proc.not_active (by simp [procinit]) (by simp [procinit]))
    · simp
  unfold userinit at started
  rcases allocproc_cases ⟨true, true, true⟩ (procinit : Kernel n 1) with
    failed | ⟨p, unused, allocated | freed⟩
  · rw [failed] at started
    contradiction
  · rw [allocated] at started
    cases started
    have inactive : ¬ ((procinit : Kernel n 1).proc p).active :=
      Proc.not_active (by simp [procinit]) (by simp [procinit])
    simp only [Kernel.allocated, Function.update_idem, Function.update_self]
    exact initial.activate inactive rfl
      (getMinAccumulator_isLeast_all initial.legal.nonneg inactive)
      (by simp [freshProc, maxPriority])
  · rw [freed] at started
    contradiction

/-- The runs on one processor in which no `kill` hits a sleeping process. -/
abbrev sparingSystem (n : Nat) : System (Kernel n 1) (Fin 1 × Op n) :=
  (kernelSystem n 1).guarded SparesSleepers

/-- In the runs that spare the sleepers the table is fair. -/
theorem fair_of_reachable
    {kernel : Kernel n 1} (reached : (sparingSystem n).Reachable kernel) :
    Fair kernel.proc kernel.current := by
  refine reached.invariant
    (fun kernel => Fair kernel.proc kernel.current) ?_ ?_
  · intro start begun
    exact fair_userinit begun
  · rintro state ⟨c, op⟩ next - fair ⟨spared, taken⟩
    exact fair.exec spared taken

/--
In every state of a run on one processor, the accumulators of two active
processes differ by at most the largest priority.
-/
theorem accumulator_spread
    {kernel : Kernel n 1} (reached : (sparingSystem n).Reachable kernel)
    (p q : Fin n)
    (activeP : (kernel.proc p).active) (activeQ : (kernel.proc q).active) :
    |(kernel.proc p).accumulator - (kernel.proc q).accumulator| ≤
      maxPriority := by
  have fair := fair_of_reachable reached
  have above := fair.spread p q activeP activeQ
  have below := fair.spread q p activeQ activeP
  rw [abs_le]
  omega

/-! ## A run with two active processes -/

/-- The state `userinit` leaves in a table of two entries. -/
def booted : Kernel 2 1 :=
  userinit.get (by decide)

/-- The first process runs. -/
def dispatched : Kernel 2 1 :=
  (exec booted onlyCpu .schedule).get (by decide)

/-- The first process has forked. -/
def forked : Kernel 2 1 :=
  (exec dispatched onlyCpu (.fork ⟨true, true, true⟩)).get (by decide)

theorem reachable_exec
    {kernel : Kernel n 1} (reached : (sparingSystem n).Reachable kernel)
    (c : Fin 1) (op : Op n) (enabled : (exec kernel c op).isSome)
    (spared : SparesSleepers kernel (c, op)) :
    (sparingSystem n).Reachable ((exec kernel c op).get enabled) :=
  have taken : (sparingSystem n).step kernel (c, op)
      ((exec kernel c op).get enabled) :=
    ⟨spared, (Option.some_get enabled).symm⟩
  .step reached taken

theorem reachable_forked : (sparingSystem 2).Reachable forked := by
  have boot : (sparingSystem 2).Reachable booted :=
    .start (Option.some_get _).symm
  have dispatch : (sparingSystem 2).Reachable dispatched :=
    reachable_exec boot 0 .schedule (by decide) (by rintro _ ⟨⟩)
  exact reachable_exec dispatch 0 (.fork ⟨true, true, true⟩) (by decide)
    (by rintro _ ⟨⟩)

/-- Parent and child are active after the `fork`. -/
theorem accumulator_spread_forked :
    (forked.proc 0).active ∧ (forked.proc 1).active ∧
      |(forked.proc 0).accumulator - (forked.proc 1).accumulator| ≤
        maxPriority :=
  ⟨by decide, by decide,
    accumulator_spread reachable_forked 0 1 (by decide) (by decide)⟩

end OSCourse.Scheduling
