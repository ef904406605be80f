import OSCourse.Scheduling.Lifecycle

/-!
# The states of a process

The state diagram of `proc.c`, as whole operations see it: a process is RUNNING
exactly while one processor has it, USED only inside `fork`, and every step
takes every process along an arrow of the diagram.
-/

namespace OSCourse.Scheduling

open OSCourse.Library.TransitionSystem

variable {n cpus : Nat} {kernel next : Kernel n cpus}

/-- The arrows between different states. -/
inductive Arrow : ProcState → ProcState → Prop where
  | fork : Arrow .unused .runnable
  | scheduler : Arrow .runnable .running
  | yield : Arrow .running .runnable
  | sleep : Arrow .running .sleeping
  | wakeup : Arrow .sleeping .runnable
  | exit : Arrow .running .zombie
  | wait : Arrow .zombie .unused

/-- The process stays in its state or follows an arrow. -/
def Moves (before after : Proc n) : Prop :=
  after.state = before.state ∨ Arrow before.state after.state

theorem Stirred.moves {before after : Proc n}
    (stirred : Stirred before after) : Moves before after := by
  rcases stirred.state with same | ⟨asleep, woken⟩
  · exact .inl same
  · right
    rw [asleep, woken]
    exact .wakeup

/-- Waking makes nobody RUNNING. -/
theorem Stirred.state_eq_iff_running {before after : Proc n}
    (stirred : Stirred before after) :
    after.state = .running ↔ before.state = .running :=
  stirred.state_eq_iff (by decide) (by decide)

theorem moves_update {table : Table n} {p : Fin n} {entry : Proc n}
    (moves : Moves (table p) entry) (q : Fin n) :
    Moves (table q) (Function.update table p entry q) := by
  by_cases same : q = p
  · subst same
    rwa [Function.update_self]
  · rw [Function.update_of_ne same]
    exact .inl rfl

theorem moves_of_taken (sound : Sound kernel) {c : Fin cpus} {op : Op n}
    (taken : Taken kernel c op next) (q : Fin n) :
    Moves (kernel.proc q) (next.proc q) := by
  have running := sound.running c
  cases taken with
  | stay => exact .inl rfl
  | dispatch p idle chosen =>
      have runnable := scanSoFar_scan kernel.proc
      rw [chosen] at runnable
      refine moves_update (.inr ?_) q
      rw [runnable.1]
      exact .scheduler
  | wakeup chan => exact (stirred_wakeup _ _ kernel.proc q).moves
  | preempt op p accumulator busy tick =>
      refine moves_update (.inr ?_) q
      rw [running p busy]
      exact .yield
  | fork memory p np busy unused =>
      refine moves_update (.inr ?_) q
      rw [unused]
      exact .fork
  | forkFails memory p np busy unused =>
      exact moves_update (.inl unused.symm) q
  | sleep chan p busy =>
      refine moves_update (.inr ?_) q
      rw [running p busy]
      exact .sleep
  | block addr copyout p busy blocked =>
      refine moves_update (.inr ?_) q
      rw [running p busy]
      exact .sleep
  | exit op status p busy other exits =>
      have entry := exit_entry status kernel.initproc p kernel.proc q
      by_cases same : q = p
      · right
        subst same
        rw [Kernel.switched, (entry.leaves rfl).1, running q busy]
        exact .exit
      · exact (entry.others same).moves
  | reap addr copyout p child busy reaped =>
      refine moves_update (.inr ?_) q
      rw [waitScan_reaped reaped]
      exact .wait
  | kill pid p victim busy found =>
      refine moves_update ?_ q
      by_cases asleep : (kernel.proc victim).state = .sleeping
      · right
        rw [asleep]
        simpa using Arrow.wakeup
      · left
        simp [asleep]
  | setPsPriority priority p busy =>
      refine moves_update (.inl ?_) q
      rfl

/-! ## Processors -/

/-- Every RUNNING process is on a processor, and none is USED. -/
structure Placed (kernel : Kernel n cpus) : Prop where
  running : ∀ p, (kernel.proc p).state = .running →
    ∃ c, kernel.cpu c = some p
  settled : ∀ p, (kernel.proc p).state ≠ .used

theorem Moves.settled {before after : Proc n} (moves : Moves before after)
    (settled : before.state ≠ .used) : after.state ≠ .used := by
  have unreachable : ∀ state, ¬ Arrow state .used := nofun
  rcases moves with same | arrow
  · rwa [same]
  · intro used
    rw [used] at arrow
    exact unreachable _ arrow

/-- The process that processor `c` has after a step, or one that stays where it
was. -/
def Stays (kernel next : Kernel n cpus) (c : Fin cpus) (q : Fin n) : Prop :=
  next.cpu c = some q ∨ (kernel.proc q).state = .running ∧
    ∀ d, kernel.cpu d = some q → next.cpu d = some q

/-- An entry changes, and no processor does. -/
theorem stays_update {c : Fin cpus} {p q : Fin n} {entry : Proc n}
    (cpu : next.cpu = kernel.cpu)
    (proc : next.proc = Function.update kernel.proc p entry)
    (here : entry.state = .running → (kernel.proc p).state = .running)
    (running : (next.proc q).state = .running) : Stays kernel next c q := by
  refine .inr ⟨?_, fun d on => cpu ▸ on⟩
  rw [proc] at running
  by_cases same : q = p
  · subst same
    rw [Function.update_self] at running
    exact here running
  · rwa [Function.update_of_ne same] at running

/-- The process of processor `c` leaves it. -/
theorem stays_switched {c : Fin cpus} {p q : Fin n} {table : Table n}
    (busy : kernel.cpu c = some p) (stops : (table p).state ≠ .running)
    (others : ∀ r, r ≠ p → (table r).state = .running →
      (kernel.proc r).state = .running)
    (running : (table q).state = .running) :
    Stays kernel (kernel.switched c table) c q := by
  have other : q ≠ p := by
    rintro rfl
    exact stops running
  refine .inr ⟨others q other running, fun d on => ?_⟩
  have apart : d ≠ c := by
    rintro rfl
    rw [on, Option.some.injEq] at busy
    exact other busy
  simpa [Kernel.switched, apart] using on

theorem stays_of_taken {c : Fin cpus} {op : Op n}
    (taken : Taken kernel c op next) {q : Fin n}
    (running : (next.proc q).state = .running) : Stays kernel next c q := by
  have changed : ∀ {p : Fin n} {entry : Proc n}, entry.state ≠ .running →
      ∀ r, r ≠ p → (Function.update kernel.proc p entry r).state = .running →
        (kernel.proc r).state = .running := by
    intro p entry _ r other runs
    rwa [Function.update_of_ne other] at runs
  cases taken with
  | stay => exact .inr ⟨running, fun _ on => on⟩
  | dispatch p idle chosen =>
      by_cases same : q = p
      · subst same
        exact .inl (Function.update_self _ _ _)
      · refine .inr ⟨?_, fun d on => ?_⟩
        · simpa [Scheduling.dispatch, same] using running
        · have apart : d ≠ c := by
            rintro rfl
            rw [idle] at on
            cases on
          simpa [apart] using on
  | wakeup chan =>
      refine .inr ⟨?_, fun _ on => on⟩
      exact ((stirred_wakeup _ _ kernel.proc q).state_eq_iff_running).mp running
  | preempt op p accumulator busy tick =>
      exact stays_switched busy (by simp) (changed (by simp)) running
  | fork memory p np busy unused =>
      exact stays_update rfl rfl (by simp [forkedProc]) running
  | forkFails memory p np busy unused =>
      exact stays_update rfl rfl (by simp [freeproc]) running
  | sleep chan p busy =>
      exact stays_switched busy (by simp [Scheduling.sleep])
        (changed (by simp)) running
  | block addr copyout p busy blocked =>
      exact stays_switched busy (by simp [Scheduling.sleep])
        (changed (by simp)) running
  | exit op status p busy other exits =>
      have entry := exit_entry status kernel.initproc p kernel.proc
      refine stays_switched busy ?_ (fun r apart runs => ?_) running
      · rw [((entry p).leaves rfl).1]
        decide
      · exact (((entry r).others apart).state_eq_iff_running).mp runs
  | reap addr copyout p child busy reaped =>
      exact stays_update rfl rfl (by simp [freeproc]) running
  | kill pid p victim busy found =>
      refine stays_update rfl rfl (fun runs => ?_) running
      simp only at runs
      split at runs
      · cases runs
      · exact runs
  | setPsPriority priority p busy =>
      exact stays_update rfl rfl (fun runs => runs) running

theorem placed_of_reachable
    (reached : (kernelSystem n cpus).Reachable kernel) : Placed kernel := by
  refine reached.invariant Placed ?_ ?_
  · intro kernel started
    rcases userinit_cases started with ⟨p, rfl⟩
    constructor
    case running =>
      intro q runs
      by_cases same : q = p
      · simp [Kernel.allocated, same] at runs
      · simp [Kernel.allocated, same, procinit] at runs
    case settled =>
      intro q
      by_cases same : q = p
      · simp [Kernel.allocated, same]
      · simp [Kernel.allocated, same, procinit]
  · rintro kernel ⟨c, op⟩ next before placed ran
    have taken := taken_of_exec ran
    constructor
    case running =>
      intro p runs
      rcases stays_of_taken taken runs with here | ⟨ran, kept⟩
      · exact ⟨c, here⟩
      · rcases placed.running p ran with ⟨d, on⟩
        exact ⟨d, kept d on⟩
    case settled =>
      intro p
      exact (moves_of_taken (sound_of_reachable before) taken p).settled
        (placed.settled p)

/--
In every run a process is RUNNING exactly if one processor has it, never two;
between operations no process is USED; and each step takes each process along
an arrow of the state diagram or leaves it in its state.
-/
theorem state_diagram
    (reached : (kernelSystem n cpus).Reachable kernel) :
    (∀ p, (kernel.proc p).state = .running ↔
      ∃! c, kernel.cpu c = some p) ∧
    (∀ p, (kernel.proc p).state ≠ .used) ∧
    ∀ c op next, exec kernel c op = some next →
      ∀ p, Moves (kernel.proc p) (next.proc p) := by
  have sound := sound_of_reachable reached
  have placed := placed_of_reachable reached
  refine ⟨fun p => ⟨fun running => ?_, ?_⟩, placed.settled, ?_⟩
  · rcases placed.running p running with ⟨c, on⟩
    exact ⟨c, on, fun d also => sound.apart d c p also on⟩
  · rintro ⟨c, on, _⟩
    exact sound.running c p on
  · intro c op next ran p
    exact moves_of_taken sound (taken_of_exec ran) p

theorem state_diagram_childRuns :
    (∀ p, (childRuns.proc p).state = .running ↔
      ∃! c, childRuns.cpu c = some p) ∧
    (∀ p, (childRuns.proc p).state ≠ .used) ∧
    ∀ c op next, exec childRuns c op = some next →
      ∀ p, Moves (childRuns.proc p) (next.proc p) :=
  state_diagram reachable_childRuns.of_guarded

end OSCourse.Scheduling
