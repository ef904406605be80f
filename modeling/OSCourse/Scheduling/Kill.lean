import OSCourse.Scheduling.Lifecycle

/-!
# Killing by id

`kill` takes the first entry of the table with the id, and free entries have
the id 0.  So, as long as `allocpid` has not come to the end of its `int`,
`kill` of any other id marks exactly the process with that id, but `kill(0)`
marks a free entry, and nothing clears the mark before `fork` gives the entry to
a child.
-/

namespace OSCourse.Scheduling

open OSCourse.Library.TransitionSystem

variable {n cpus : Nat} {kernel next : Kernel n cpus}

/-- A process that has been killed. -/
def Proc.marked (p : Proc n) : Proc n :=
  { p with
    killed := true
    state := if p.state = .sleeping then .runnable else p.state }

/-- A process in use with the id. -/
def HasPid (table : Table n) (pid : Int) (p : Fin n) : Prop :=
  (table p).state ≠ .unused ∧ (table p).pid = pid

/--
In every state reached before the ids run out, `kill` of an id other than 0
returns 0 exactly if a process has the id; then there is one such process, and
`kill` marks it, wakes it if it sleeps, and changes nothing else.  Otherwise it
returns -1 and changes nothing.
-/
theorem kill_exact
    (reached : ((kernelSystem n cpus).guarded Numbered).Reachable kernel)
    (pid : Int) (nonzero : pid ≠ 0) :
    (∃ p, HasPid kernel.proc pid p ∧
      (∀ q, HasPid kernel.proc pid q → q = p) ∧
      kill pid kernel.proc =
        (0, Function.update kernel.proc p (kernel.proc p).marked)) ∨
    ((∀ p, ¬ HasPid kernel.proc pid p) ∧
      kill pid kernel.proc = (-1, kernel.proc)) := by
  have pids := pids_of_reachable reached.of_guarded
  have used : ∀ p, (kernel.proc p).pid = pid →
      (kernel.proc p).state ≠ .unused := by
    intro p same unused
    exact nonzero (same ▸ pids.free p unused)
  unfold kill
  cases found : (List.finRange n).find? fun p =>
      decide ((kernel.proc p).pid = pid) with
  | none =>
      right
      refine ⟨?_, rfl⟩
      rintro p ⟨_, same⟩
      have missed := List.find?_eq_none.mp found p (List.mem_finRange p)
      simp [same] at missed
  | some p =>
      left
      have same : (kernel.proc p).pid = pid := by
        simpa using List.find?_some found
      refine ⟨p, ⟨used p same, same⟩, ?_, rfl⟩
      rintro q ⟨inUse, sameQ⟩
      exact pids.apart q p inUse (used p same) (sameQ.trans same.symm)

theorem numbered_forked :
    ((kernelSystem 2 1).guarded Numbered).Reachable forked := by
  have start : ((kernelSystem 2 1).guarded Numbered).Reachable booted :=
    .start (Option.some_get _).symm
  have dispatch : ((kernelSystem 2 1).guarded Numbered).step booted
      (onlyCpu, .schedule) dispatched :=
    ⟨by decide, (Option.some_get _).symm⟩
  have fork : ((kernelSystem 2 1).guarded Numbered).step dispatched
      (onlyCpu, .fork ⟨true, true, true⟩) forked :=
    ⟨by decide, (Option.some_get _).symm⟩
  exact (start.step dispatch).step fork

/-- The child of the first process has the id 2. -/
theorem kill_exact_forked :
    (kill 2 forked.proc).1 = 0 ∧
      ((∃ p, HasPid forked.proc 2 p ∧
        (∀ q, HasPid forked.proc 2 q → q = p) ∧
        kill 2 forked.proc =
          (0, Function.update forked.proc p (forked.proc p).marked)) ∨
      ((∀ p, ¬ HasPid forked.proc 2 p) ∧
        kill 2 forked.proc = (-1, forked.proc))) :=
  ⟨by decide, kill_exact numbered_forked 2 (by decide)⟩

/-! ## Born killed -/

/-- No free entry is marked. -/
def Unmarked (kernel : Kernel n cpus) : Prop :=
  ∀ p, (kernel.proc p).state = .unused → (kernel.proc p).killed = false

/-- Nobody calls `kill(0)`. -/
def SparesFree (_ : Kernel n cpus) (label : Fin cpus × Op n) : Prop :=
  label.2 ≠ .kill 0

/-- One entry changes and is in use afterwards, or is not marked. -/
theorem Unmarked.update (unmarked : Unmarked kernel) {p : Fin n}
    {entry : Proc n} (proc : next.proc = Function.update kernel.proc p entry)
    (clear : entry.state = .unused → entry.killed = false) :
    Unmarked next := by
  intro q unused
  rw [proc] at unused ⊢
  by_cases same : q = p
  · subst same
    rw [Function.update_self] at unused ⊢
    exact clear unused
  · rw [Function.update_of_ne same] at unused ⊢
    exact unmarked q unused

theorem Unmarked.stirred (unmarked : Unmarked kernel)
    (entries : ∀ p, (next.proc p).state = .unused →
      Stirred (kernel.proc p) (next.proc p)) :
    Unmarked next := by
  intro p unused
  have stirred := entries p unused
  rw [stirred.killed]
  exact unmarked p ((stirred.state_eq_iff (by decide) (by decide)).mp unused)

theorem Unmarked.step (unmarked : Unmarked kernel) (pids : Pids kernel)
    {c : Fin cpus} {op : Op n} (taken : Taken kernel c op next)
    (spared : op ≠ .kill 0) : Unmarked next := by
  cases taken with
  | stay => exact unmarked
  | dispatch p idle chosen => exact unmarked.update rfl (by simp)
  | wakeup chan =>
      exact unmarked.stirred fun p _ => stirred_wakeup _ _ kernel.proc p
  | preempt op p accumulator busy tick => exact unmarked.update rfl (by simp)
  | fork memory p np busy unused =>
      exact unmarked.update rfl (by simp [forkedProc])
  | forkFails memory p np busy unused => exact unmarked.update rfl fun _ => rfl
  | sleep chan p busy => exact unmarked.update rfl (by simp)
  | block addr copyout p busy blocked => exact unmarked.update rfl (by simp)
  | exit op status p busy other exits =>
      refine unmarked.stirred fun q unused => ?_
      have entry := exit_entry status kernel.initproc p kernel.proc q
      refine entry.others ?_
      rintro rfl
      rw [Kernel.switched, (entry.leaves rfl).1] at unused
      cases unused
  | reap addr copyout p child busy reaped =>
      exact unmarked.update rfl fun _ => rfl
  | kill pid p victim busy found =>
      refine unmarked.update rfl fun unused => ?_
      exfalso
      have free : (kernel.proc victim).state = .unused := by
        simp only at unused
        split at unused
        · cases unused
        · exact unused
      rw [pids.free victim free] at found
      exact spared (by rw [found])
  | setPsPriority priority p busy =>
      exact unmarked.update rfl (unmarked p)

theorem unmarked_of_reachable
    (reached : (((kernelSystem n cpus).guarded Numbered).guarded
      SparesFree).Reachable kernel) :
    Unmarked kernel := by
  refine reached.invariant Unmarked ?_ ?_
  · intro kernel started p unused
    rcases userinit_cases started with ⟨q, rfl⟩
    by_cases same : p = q
    · subst same
      simp [Kernel.allocated] at unused
    · simp [Kernel.allocated, same, procinit]
  · rintro kernel ⟨c, op⟩ next before unmarked ⟨spared, _, taken⟩
    exact unmarked.step (pids_of_reachable before.of_guarded.of_guarded)
      (taken_of_exec taken) spared

/-- The first entry with the id 0 is the first free one. -/
theorem Pids.find_zero (pids : Pids kernel) :
    ((List.finRange n).find? fun p => decide ((kernel.proc p).pid = 0)) =
      (List.finRange n).find? fun p =>
        decide ((kernel.proc p).state = .unused) := by
  congr 1
  funext p
  rw [decide_eq_decide]
  constructor
  · intro zero
    by_contra used
    have positive := (pids.used p used).1
    omega
  · exact pids.free p

/-- Marking a free entry leaves the choice of `allocproc`. -/
theorem find_unused_marked {victim : Fin n}
    (free : (kernel.proc victim).state = .unused) :
    ((List.finRange n).find? fun p =>
        decide ((Function.update kernel.proc victim
          (kernel.proc victim).marked p).state = .unused)) =
      (List.finRange n).find? fun p =>
        decide ((kernel.proc p).state = .unused) := by
  congr 1
  funext p
  by_cases same : p = victim
  · subst same
    simp [Proc.marked, free]
  · rw [Function.update_of_ne same]

/-- A `fork` for which there is memory takes the first free entry. -/
theorem fork_first {np : Fin n} (p : Fin n)
    (found : ((List.finRange n).find? fun q =>
      decide ((kernel.proc q).state = .unused)) = some np) :
    fork ⟨true, true, true⟩ p kernel =
      kernel.allocated np (forkedProc kernel p np) := by
  simp [fork, allocproc, found, Kernel.allocated, forkedProc]

/-- A call of `kill(0)` and the `fork` after it, by one process. -/
structure Doomed (kernel : Kernel n cpus) (c : Fin cpus) (p child : Fin n)
    (hit last : Kernel n cpus) : Prop where
  killed : exec kernel c (.kill 0) = some hit
  forked : exec hit c (.fork ⟨true, true, true⟩) = some last
  free : (kernel.proc child).state = .unused
  parent : (last.proc child).parent = some p
  pid : (last.proc child).pid = kernel.nextpid
  runnable : (last.proc child).state = .runnable
  born : (last.proc child).killed = true

theorem doomed_of_free (pids : Pids kernel) {c : Fin cpus} {p : Fin n}
    (busy : kernel.cpu c = some p)
    (free : ∃ q, (kernel.proc q).state = .unused) :
    ∃ child hit last, Doomed kernel c p child hit last := by
  cases found : (List.finRange n).find? fun q =>
      decide ((kernel.proc q).state = .unused) with
  | none =>
      rcases free with ⟨q, unused⟩
      have missed := List.find?_eq_none.mp found q (List.mem_finRange q)
      simp [unused] at missed
  | some child =>
      have unused : (kernel.proc child).state = .unused := by
        simpa using List.find?_some found
      let hit : Kernel n cpus := { kernel with
        proc := Function.update kernel.proc child
          (kernel.proc child).marked }
      have again : ((List.finRange n).find? fun q =>
          decide ((hit.proc q).state = .unused)) = some child :=
        (find_unused_marked unused).trans found
      refine ⟨child, hit, hit.allocated child (forkedProc hit p child), ?_, ?_,
        unused, ?_, ?_, ?_, ?_⟩
      · simp [exec, busy, runningOp, kill, pids.find_zero, found, hit,
          Proc.marked]
      · have stillBusy : hit.cpu c = some p := busy
        simp only [exec, stillBusy, runningOp, fork_first p again]
      all_goals simp [Kernel.allocated, forkedProc, freshProc, hit,
        Proc.marked]

/-- When a child is born killed, as long as the ids do not run out. -/
structure BirthLaw (n cpus : Nat) : Prop where
  /-- In a run without `kill(0)`, no child is. -/
  spared : ∀ kernel : Kernel n cpus,
    (((kernelSystem n cpus).guarded Numbered).guarded
        SparesFree).Reachable kernel →
      ∀ c memory next, exec kernel c (.fork memory) = some next →
        ∀ q, (kernel.proc q).state = .unused → (next.proc q).killed = false
  /-- A `kill(0)` while an entry is free dooms the next child. -/
  doomed : ∀ kernel : Kernel n cpus,
    ((kernelSystem n cpus).guarded Numbered).Reachable kernel →
      ∀ c p, kernel.cpu c = some p →
        (∃ q, (kernel.proc q).state = .unused) →
          ∃ child hit last, Doomed kernel c p child hit last

/--
A child can be born killed only after a `kill(0)`, and a `kill(0)` that finds a
free entry makes it so for the next `fork`.
-/
theorem birthLaw (n cpus : Nat) : BirthLaw n cpus := by
  constructor
  case spared =>
    intro kernel reached c memory next ran q unused
    have clear := unmarked_of_reachable reached q unused
    cases taken_of_exec ran with
    | stay => exact clear
    | fork _ p np busy free =>
        by_cases same : q = np
        · subst same
          simpa [Kernel.allocated, forkedProc, freshProc] using clear
        · simpa [Kernel.allocated, same] using clear
    | forkFails _ p np busy free =>
        by_cases same : q = np
        · subst same
          simp [Kernel.allocated, freeproc]
        · simpa [Kernel.allocated, same] using clear
    | preempt _ _ _ _ tick => cases tick
    | exit _ _ _ _ _ exits =>
        rcases exits with exits | exits <;> cases exits
  case doomed =>
    intro kernel reached c p busy free
    exact doomed_of_free (pids_of_reachable reached.of_guarded) busy free

end OSCourse.Scheduling
