import Mathlib.Algebra.BigOperators.Fin
import Mathlib.Tactic.Ring
import OSCourse.Library.WaitFor
import OSCourse.Semaphore.Wakeups

/-!
# Calls come to an end

The locks are taken in the order array, slot, process, so no set of processes is
deadlocked on them, and each step of a call leaves less work to do.  So when no
new call is made, every run ends, whatever the order of the steps, and then each
process has returned or sleeps in `sem_down`.

Here `wakeup` holds the lock of one process at a time.  That of `ex4/part1` sets
the accumulator of the process it wakes to the least of all, for which it takes
the locks of the others as well, and two such calls can wait for each other.
-/

namespace OSCourse.Semaphore

open OSCourse.Library.LockProgram
open OSCourse.Library.TransitionSystem
open OSCourse.Library.WaitFor

variable {m n : Nat}

/-! ## The order of the locks -/

/-- The array lock comes first, then the slots, then the processes. -/
def Lock.rank : Lock m n → Nat
  | .array => 0
  | .sem _ => 1
  | .proc _ => 2

theorem Lock.rank_le (lock : Lock m n) : lock.rank ≤ 2 := by
  cases lock <;> simp [Lock.rank]

/-- A process asks for a lock that comes after those it holds. -/
theorem Pc.rank_lt_of_asks {p : Fin n} {shared : Shared m n} {pc : Pc m n}
    {asked held : Lock m n} (asks : pc.asks p shared = some asked)
    (holds : held ∈ pc.locks p) : held.rank < asked.rank := by
  cases pc with
  | wakeup id next =>
      rcases Option.map_eq_some_iff.mp asks with ⟨q, -, rfl⟩
      simp only [Pc.locks, List.mem_singleton] at holds
      subst holds
      exact Nat.lt_succ_self 1
  | freeAcquireSem id =>
      cases asks
      simp only [Pc.locks, List.mem_singleton] at holds
      subst holds
      exact Nat.zero_lt_one
  | sleepAcquire id =>
      cases asks
      simp only [Pc.locks, List.mem_singleton] at holds
      subst holds
      exact Nat.lt_succ_self 1
  | _ => simp [Pc.locks, Pc.asks] at holds asks

/-- The process is at an acquire of the lock. -/
def Waits (state : SemState m n) (p : Fin n) (lock : Lock m n) : Prop :=
  (state.pc p).asks p state.shared = some lock

/-- The process has the lock. -/
def Holds (state : SemState m n) (p : Fin n) (lock : Lock m n) : Prop :=
  state.owner lock = some p

theorem not_deadlocked {state : SemState m n} (owned : Owned state)
    (processes : Set (Fin n)) :
    ¬ Deadlocked (Waits state) (Holds state) processes :=
  not_deadlocked_of_ranked Lock.rank 2 Lock.rank_le
    (fun p _ held asks holds =>
      Pc.rank_lt_of_asks asks ((owned.owner p held).mp holds))
    processes

/-! ## Sleepers -/

/-- A process is not RUNNING in `sched`, and RUNNABLE once it is dispatched. -/
structure Rested (state : SemState m n) : Prop where
  sleeps : ∀ p id, (state.pc p).Sleeps id →
    (state.shared.procs p).state ≠ .running
  tidies : ∀ p id, state.pc p = .sleepTidy id →
    (state.shared.procs p).state = .runnable

theorem Pc.rested_body {p : Fin n} {shared : Shared m n} {pc : Pc m n}
    {effect : Effect (Shared m n) (Lock m n) (Pc m n)} {id : Fin m} :
    pc.body p shared = some effect →
      (effect.pc.Sleeps id →
        (effect.shared.procs p).state ≠ .running ∨
          pc.Sleeps id ∧ effect.shared.procs p = shared.procs p) ∧
      effect.pc ≠ .sleepTidy id := by
  fun_cases Pc.body p shared pc <;> rintro ⟨⟩ <;>
    grind [Pc.Sleeps]

theorem Pc.state_body_other {p q : Fin n} {shared : Shared m n} {pc : Pc m n}
    {effect : Effect (Shared m n) (Lock m n) (Pc m n)} (distinct : q ≠ p) :
    pc.body p shared = some effect →
      (effect.shared.procs q).state = (shared.procs q).state ∨
        (effect.shared.procs q).state = .runnable := by
  fun_cases Pc.body p shared pc <;> rintro ⟨⟩ <;> grind

/-- Only a process that is dispatched comes to the end of `sleep`. -/
theorem Advance.asleep_of_tidy {p : Fin n} {shared : Shared m n}
    {pc pc' : Pc m n} {move : Move Call Unit} {id : Fin m}
    (moves : Advance p shared pc move pc') (tidies : pc' = .sleepTidy id) :
    pc = .asleep id := by
  cases moves with
  | call routine idle =>
      have entry : Entry (routine.entry : Pc m n) := routine.isEntry
      rw [tidies] at entry
      cases entry
  | acquire choice lock asks =>
      cases pc with
      | asleep slot =>
          simp only [Pc.acquired, Pc.sleepTidy.injEq] at tidies
          rw [tidies]
      | wakeup slot next =>
          rcases Option.map_eq_some_iff.mp asks with ⟨q, -, rfl⟩
          cases tidies
      | kill pid next =>
          rcases Option.map_eq_some_iff.mp asks with ⟨q, -, rfl⟩
          cases tidies
      | _ => cases asks <;> cases tidies

theorem Rested.advance {state : SemState m n} {p : Fin n}
    {move : Move Call Unit} {pc : Pc m n}
    {owner : Lock m n → Option (Fin n)} (rested : Rested state)
    (moves : Advance p state.shared (state.pc p) move pc) :
    Rested ⟨state.shared, owner, Function.update state.pc p pc⟩ := by
  constructor
  · intro q id sleeps
    by_cases same : q = p
    · subst same
      exact absurd (by simpa using sleeps) (moves.bystander.sleeps id)
    · exact rested.sleeps q id
        (by simpa only [Function.update_of_ne same] using sleeps)
  · intro q id tidies
    by_cases same : q = p
    · subst same
      simp only [Function.update_self] at tidies
      exact moves.runnable_of_sleeps (.inr (moves.asleep_of_tidy tidies))
    · exact rested.tidies q id
        (by simpa only [Function.update_of_ne same] using tidies)

theorem Rested.apply {state : SemState m n} {p : Fin n}
    {effect : Effect (Shared m n) (Lock m n) (Pc m n)} (rested : Rested state)
    (ran : (state.pc p).body p state.shared = some effect) :
    Rested (Program.apply state p effect) := by
  constructor
  · intro q id sleeps
    rw [apply_pc] at sleeps
    split at sleeps
    · next same =>
      subst same
      rcases (Pc.rested_body ran).1 sleeps with awake | ⟨slept, kept⟩
      · exact awake
      · rw [Program.apply, kept]
        exact rested.sleeps q id slept
    · next distinct =>
      rcases Pc.state_body_other distinct ran with kept | woken
      · rw [Program.apply, kept]
        exact rested.sleeps q id sleeps
      · rw [Program.apply, woken]
        decide
  · intro q id tidies
    rw [apply_pc] at tidies
    split at tidies
    · exact absurd tidies (Pc.rested_body ran).2
    · next distinct =>
      rcases Pc.state_body_other distinct ran with kept | woken
      · exact kept.trans (rested.tidies q id tidies)
      · exact woken

theorem rested_of_reachable {state : SemState m n}
    (reached : (semSystem m n).Reachable state) : Rested state := by
  refine reached.invariant Rested ?_ ?_
  · rintro state ⟨-, -, outside⟩
    have idle : ∀ q, state.pc q = .outside := outside
    constructor
    · intro q id sleeps
      simp [idle, Pc.Sleeps] at sleeps
    · intro q id tidies
      simp [idle] at tidies
  · intro state label next _ rested taken
    cases semStep_of_exec taken with
    | advance p move pc owner moves => exact rested.advance moves
    | body p choice effect asks ran => exact rested.apply ran

/-! ## The work left -/

/-- A bound on the steps that a process takes before it returns or sleeps. -/
def Pc.work : Pc m n → Nat
  | .outside => 0
  | .createAcquire _ => m + 5
  | .createScan _ i => m - i + 4
  | .createValue _ _ => 3
  | .createInit _ _ => 2
  | .createReturn _ => 1
  | .freeAcquire _ => 6
  | .freeCheck _ => 5
  | .freeAcquireSem _ => 4
  | .freeTest _ => 3
  | .freeReleaseSem _ _ => 2
  | .freeReturn _ _ => 1
  | .downAcquire _ => 9
  | .downCheck _ => 8
  | .downReacquire _ => 8
  | .downTest _ => 7
  | .sleepAcquire _ => 6
  | .sleepRelease _ => 5
  | .sleepMark _ => 4
  | .sleepSched _ => 3
  | .asleep _ => 2
  | .sleepTidy _ => 1
  | .downDecrement _ => 2
  | .downReturn _ _ => 1
  | .upAcquire _ => 10 * n + 5
  | .upCheck _ => 10 * n + 4
  | .upIncrement _ => 10 * n + 3
  | .wakeup _ next => 10 * (n - next) + 2
  | .wakeupLocked _ q => 10 * (n - q) + 1
  | .upReturn _ _ => 1
  | .kill _ next => 2 * (n - next) + 9
  | .killLocked _ q => 2 * (n - q) + 8

/-- A process that has been woken has the rest of `sem_down` before it. -/
def Proc.work (proc : Proc m) : Nat :=
  if proc.state = .runnable then 8 else 0

/-- The steps that are left without new calls, at most. -/
def work (state : SemState m n) : Nat :=
  ∑ p, (state.pc p).work + ∑ p, (state.shared.procs p).work

theorem sum_update_add (f : Fin n → Nat) (p : Fin n) (value : Nat) :
    ∑ q, Function.update f p value q + f p = ∑ q, f q + value := by
  rw [Finset.sum_update_of_mem (Finset.mem_univ p),
    ← Finset.add_sum_erase _ f (Finset.mem_univ p),
    Finset.sdiff_singleton_eq_erase]
  ring

/-- One process changes its place. -/
theorem sum_work_update (pcs : Fin n → Pc m n) (p : Fin n) (pc : Pc m n) :
    ∑ q, (Function.update pcs p pc q).work + (pcs p).work =
      ∑ q, (pcs q).work + pc.work := by
  rw [← sum_update_add (fun q => (pcs q).work) p pc.work]
  congr 1
  refine Finset.sum_congr rfl fun q _ => ?_
  by_cases same : q = p
  · subst same
    simp
  · simp [same]

/-- One process changes its entry. -/
theorem sum_work_setProc (shared : Shared m n) (p : Fin n) (proc : Proc m) :
    ∑ q, ((shared.setProc p proc).procs q).work + (shared.procs p).work =
      ∑ q, (shared.procs q).work + proc.work := by
  rw [← sum_update_add (fun q => (shared.procs q).work) p proc.work]
  congr 1
  refine Finset.sum_congr rfl fun q _ => ?_
  by_cases same : q = p
  · subst same
    simp
  · simp [same]

/-- A step between acquires leaves less to do, to its process and to the one
whose entry it changes. -/
theorem Pc.work_body {p : Fin n} {shared : Shared m n} {pc : Pc m n}
    {effect : Effect (Shared m n) (Lock m n) (Pc m n)}
    (woken : ∀ id, pc = .sleepTidy id → (shared.procs p).state = .runnable)
    (quiet : pc.asks p shared = none)
    (ran : pc.body p shared = some effect) :
    effect.shared.procs = shared.procs ∧ effect.pc.work < pc.work ∨
      ∃ q proc, effect.shared.procs = (shared.setProc q proc).procs ∧
        effect.pc.work + proc.work < pc.work + (shared.procs q).work := by
  revert ran
  fun_cases Pc.body p shared pc <;> rintro ⟨⟩ <;>
    first
    | exact .inl ⟨rfl, by simp only [Pc.work]; omega⟩
    | right
  · -- the process marks itself SLEEPING
    refine ⟨p, _, rfl, ?_⟩
    simp only [Pc.work, Proc.work, reduceCtorEq, if_false]
    omega
  · -- it has been dispatched, so it was woken
    refine ⟨p, _, rfl, ?_⟩
    simp [Pc.work, Proc.work, woken _ rfl]
  · next id q asleep =>
    refine ⟨q, _, rfl, ?_⟩
    have inside := q.isLt
    simp only [Pc.work, Proc.work, asleep.1, if_true]
    omega
  · next q =>
    refine ⟨q, _, rfl, ?_⟩
    have inside := q.isLt
    simp only [Pc.work, Proc.work]
    split
    · split
      · omega
      · omega
    · omega

/-- An acquire leaves less to do. -/
theorem Pc.work_acquired {p : Fin n} {shared : Shared m n} {pc : Pc m n}
    {lock : Lock m n} (asks : pc.asks p shared = some lock) :
    (pc.acquired lock).work < pc.work := by
  cases pc with
  | asleep id =>
      have less : (1 : Nat) < 2 := Nat.lt_succ_self 1
      exact less
  | wakeup id next =>
      rcases Option.map_eq_some_iff.mp asks with ⟨q, found, rfl⟩
      have here := (filter_entryAt_eq_some.mp found).1
      simp only [Pc.acquired, Pc.work]
      omega
  | kill pid next =>
      rcases Option.map_eq_some_iff.mp asks with ⟨q, found, rfl⟩
      have here := entryAt_eq_some.mp found
      simp only [Pc.acquired, Pc.work]
      omega
  | _ => cases asks <;> simp only [Pc.acquired, Pc.work] <;> omega

theorem work_lt_of_exec {state next : SemState m n} (rested : Rested state)
    {label : SemLabel n} (going : label.2.routine = none)
    (taken : (semProgram m n).exec state label = some next) :
    work next < work state := by
  cases semStep_of_exec taken with
  | advance p move pc owner moves =>
      have here := sum_work_update state.pc p pc
      have less : pc.work < (state.pc p).work := by
        cases moves with
        | call routine idle => cases going
        | acquire choice lock asks => exact Pc.work_acquired asks
      unfold work
      simp only
      omega
  | body p choice effect asks ran =>
      have here := sum_work_update state.pc p effect.pc
      unfold work
      simp only [Program.apply]
      rcases Pc.work_body (rested.tidies p) asks ran with
        ⟨same, less⟩ | ⟨q, proc, written, less⟩
      · rw [same]
        omega
      · have entry := sum_work_setProc state.shared q proc
        rw [written]
        omega

/-! ## Runs without new calls -/

/-- The interleavings from a state in which no process starts another call. -/
def callsGoOn (first : SemState m n) : System (SemState m n) (SemLabel n) :=
  ((semSystem m n).startingAt first).guarded fun _ label =>
    label.2.routine = none

/-- Nobody can go on. -/
def Stuck (state : SemState m n) : Prop :=
  ∀ p, (semProgram m n).exec state (p, .go ()) = none

/-- Every process has returned or sleeps on a slot, and all locks are free. -/
structure Settled (state : SemState m n) : Prop where
  places : ∀ p, state.pc p = .outside ∨
    ∃ id, state.pc p = .asleep id ∧ (state.shared.procs p).state = .sleeping
  locks : ∀ lock, state.owner lock = none

/-- A process that needs no lock has something to do, returned or sleeps. -/
theorem Pc.body_of_quiet {p : Fin n} {shared : Shared m n} {pc : Pc m n}
    (quiet : pc.asks p shared = none) :
    (∃ effect, pc.body p shared = some effect) ∨ pc = .outside ∨
      ∃ id, pc = .asleep id ∧ (shared.procs p).state ≠ .runnable := by
  cases pc with
  | outside => exact .inr (.inl rfl)
  | asleep id =>
      refine .inr (.inr ⟨id, rfl, fun runnable => ?_⟩)
      simp [Pc.asks, runnable] at quiet
  | _ =>
      left
      simp only [Pc.body, Pc.asks, reduceCtorEq] at quiet ⊢
      repeat' split
      all_goals exact ⟨_, rfl⟩

/-- A process that cannot go on has returned, sleeps, or waits for a lock that
somebody has. -/
theorem blocked_of_stuck {state : SemState m n} (rested : Rested state)
    (stuck : Stuck state) (p : Fin n) :
    (state.pc p = .outside ∨ ∃ id, state.pc p = .asleep id ∧
      (state.shared.procs p).state = .sleeping) ∨
    ∃ lock q, Waits state p lock ∧ Holds state q lock := by
  cases asks : (state.pc p).asks p state.shared with
  | none =>
      left
      rcases Pc.body_of_quiet asks with
        ⟨effect, ran⟩ | outside | ⟨id, asleep, idle⟩
      · have goes : (semProgram m n).exec state (p, .go ()) =
            some (Program.apply state p effect) :=
          Program.exec_of_step (.body p () effect asks ran)
        rw [stuck p] at goes
        cases goes
      · exact .inl outside
      · refine .inr ⟨id, asleep, ?_⟩
        have still := rested.sleeps p id (.inr asleep)
        cases state : (state.shared.procs p).state with
        | sleeping => rfl
        | runnable => exact absurd state idle
        | running => exact absurd state still
  | some lock =>
      right
      cases owner : state.owner lock with
      | none =>
          have goes : (semProgram m n).exec state (p, .go ()) = some _ :=
            Program.exec_of_step (.acquire p () lock asks owner)
          rw [stuck p] at goes
          cases goes
      | some q => exact ⟨lock, q, asks, owner⟩

theorem settled_of_stuck {state : SemState m n} (owned : Owned state)
    (rested : Rested state) (stuck : Stuck state) : Settled state := by
  let blocked : Set (Fin n) :=
    {p | ∃ lock q, Waits state p lock ∧ Holds state q lock}
  have idle : ∀ p, (state.pc p = .outside ∨ ∃ id, state.pc p = .asleep id ∧
      (state.shared.procs p).state = .sleeping) → ∀ lock,
        ¬ Holds state p lock := by
    rintro p (outside | ⟨id, asleep, _⟩) lock holds
    · have held := (owned.owner p lock).mp holds
      rw [outside] at held
      cases held
    · have held := (owned.owner p lock).mp holds
      rw [asleep] at held
      cases held
  have holders : ∀ q lock, Holds state q lock → q ∈ blocked := by
    intro q lock holds
    rcases blocked_of_stuck rested stuck q with rests | blocked
    · exact absurd holds (idle q rests lock)
    · exact blocked
  have none : ¬ blocked.Nonempty := by
    intro nonempty
    refine not_deadlocked owned blocked ⟨nonempty, ?_⟩
    rintro p ⟨lock, q, waits, holds⟩
    refine ⟨lock, waits, q, holders q lock holds, ?_, holds⟩
    rintro rfl
    exact Nat.lt_irrefl _
      (Pc.rank_lt_of_asks waits ((owned.owner q lock).mp holds))
  constructor
  case places =>
    intro p
    rcases blocked_of_stuck rested stuck p with rests | blocked
    · exact rests
    · exact absurd ⟨p, blocked⟩ none
  case locks =>
    intro lock
    cases owner : state.owner lock with
    | none => rfl
    | some q => exact absurd ⟨q, holders q lock owner⟩ none

/-- What happens if no new calls are made. -/
structure ComesToRest (first : SemState m n) : Prop where
  ends : ∀ steps last, (callsGoOn first).Stretch first steps last →
    steps.length ≤ work first
  settles : ∀ steps last, (callsGoOn first).Stretch first steps last →
    Stuck last → Settled last

/--
From every reachable state, every run without new calls is finite, and one that
cannot be continued ends with every process back from its call or SLEEPING in
`sem_down`, and with every lock free: no order of the steps deadlocks the array
lock, the locks of the slots and those of the processes.  `sleep`, `wakeup` and
`kill` are those of `ex4/part1` without the accumulators.
-/
theorem comesToRest {first : SemState m n}
    (reached : (semSystem m n).Reachable first) : ComesToRest first := by
  have everywhere : ∀ state, (callsGoOn first).Reachable state →
      (semSystem m n).Reachable state :=
    fun state later => reached.of_startingAt later.of_guarded
  have here : (callsGoOn first).Reachable first := .start rfl
  constructor
  case ends =>
    intro steps last stretch
    have bound := stretch.length_add_le work
      (fun state label next later taken =>
        work_lt_of_exec (rested_of_reachable (everywhere state later)) taken.1
          taken.2)
      here
    omega
  case settles =>
    intro steps last stretch stuck
    have later := everywhere last (stretch.reachable here)
    exact settled_of_stuck (owned_of_reachable later)
      (rested_of_reachable later) stuck

/-- The user sleeps for a unit that the creator is about to give. -/
theorem comesToRest_unitGiven : ComesToRest unitGiven :=
  comesToRest ((reachable_booted.of_run (fun _ _ _ taken => taken)
    (Option.some_get _).symm).of_startingAt
      (System.Reachable.of_run (usageStep_sound noUnit) (.start rfl)
        (Option.some_get _).symm).of_guarded)

end OSCourse.Semaphore
