import Mathlib.Logic.Relation
import OSCourse.Scheduling.Lifecycle

/-!
# Parents and children

In every run each process has a parent in use that has not exited, and the
parents of every process lead to the first one: a process that exits hands its
children over before it becomes a zombie.  So a zombie has no children, and its
parent can still wait for it.
-/

namespace OSCourse.Scheduling

open OSCourse.Library.TransitionSystem

variable {n cpus : Nat} {kernel next : Kernel n cpus}

/-! ## The invariant -/

/-- A process in use that has not exited. -/
def Proc.living (p : Proc n) : Prop :=
  p.state ≠ .unused ∧ p.state ≠ .zombie

/-- The first process lives and has no parent, free entries have none, and the
others have a living one that is older. -/
structure Family (kernel : Kernel n cpus) : Prop where
  first : ∃ init, kernel.initproc = some init ∧
    (kernel.proc init).living ∧ (kernel.proc init).pid = 1 ∧
      (kernel.proc init).parent = none
  free : ∀ p, (kernel.proc p).state = .unused → (kernel.proc p).parent = none
  parents : ∀ p, (kernel.proc p).state ≠ .unused →
    kernel.initproc ≠ some p → ∃ parent,
      (kernel.proc p).parent = some parent ∧ (kernel.proc parent).living ∧
        (kernel.proc parent).pid < (kernel.proc p).pid

namespace Family

/-- The parent of a process lives. -/
theorem living_parent (family : Family kernel) {p parent : Fin n}
    (child : (kernel.proc p).parent = some parent) :
    (kernel.proc parent).living ∧
      (kernel.proc parent).pid < (kernel.proc p).pid := by
  have used : (kernel.proc p).state ≠ .unused := by
    intro unused
    rw [family.free p unused] at child
    cases child
  have later : kernel.initproc ≠ some p := by
    intro same
    rcases family.first with ⟨init, here, _, _, none⟩
    rw [same, Option.some.injEq] at here
    rw [here, none] at child
    cases child
  rcases family.parents p used later with ⟨other, here, living, older⟩
  rw [here, Option.some.injEq] at child
  exact child ▸ ⟨living, older⟩

/-- Nobody is created, freed or handed over, and nobody exits. -/
theorem keep (family : Family kernel) (init : next.initproc = kernel.initproc)
    (entry : ∀ p, (next.proc p).pid = (kernel.proc p).pid ∧
      (next.proc p).parent = (kernel.proc p).parent ∧
      ((next.proc p).state = .unused ↔ (kernel.proc p).state = .unused) ∧
      ((next.proc p).state = .zombie ↔ (kernel.proc p).state = .zombie)) :
    Family next := by
  have living : ∀ p, (kernel.proc p).living → (next.proc p).living :=
    fun p living => ⟨fun unused => living.1 ((entry p).2.2.1.mp unused),
      fun zombie => living.2 ((entry p).2.2.2.mp zombie)⟩
  constructor
  case first =>
    rcases family.first with ⟨first, here, lives, pid, none⟩
    exact ⟨first, init.trans here, living first lives,
      (entry first).1.trans pid, (entry first).2.1.trans none⟩
  case free =>
    intro p unused
    rw [(entry p).2.1]
    exact family.free p ((entry p).2.2.1.mp unused)
  case parents =>
    intro p used other
    rw [init] at other
    rcases family.parents p (fun unused => used ((entry p).2.2.1.mpr unused))
      other with ⟨parent, here, lives, older⟩
    refine ⟨parent, (entry p).2.1.trans here, living parent lives, ?_⟩
    rw [(entry p).1, (entry parent).1]
    exact older

/-- One entry changes but for its id, its parent and whether it lives. -/
theorem update (family : Family kernel) {p : Fin n} {entry : Proc n}
    {cpu : Fin cpus → Option (Fin n)}
    (pid : entry.pid = (kernel.proc p).pid)
    (parent : entry.parent = (kernel.proc p).parent)
    (unused : entry.state = .unused ↔ (kernel.proc p).state = .unused)
    (zombie : entry.state = .zombie ↔ (kernel.proc p).state = .zombie) :
    Family
      { kernel with
        proc := Function.update kernel.proc p entry
        cpu := cpu } := by
  refine family.keep rfl ?_
  intro q
  by_cases same : q = p
  · subst same
    simpa using ⟨pid, parent, unused, zombie⟩
  · simp [Function.update_of_ne same]

/-- An entry that nobody has as its parent is filled or freed. -/
theorem replace (family : Family kernel) {p : Fin n} {entry : Proc n}
    (proc : next.proc = Function.update kernel.proc p entry)
    (init : next.initproc = kernel.initproc)
    (idle : ¬ (kernel.proc p).living)
    (free : entry.state = .unused → entry.parent = none)
    (parents : entry.state ≠ .unused → ∃ parent, parent ≠ p ∧
      entry.parent = some parent ∧ (kernel.proc parent).living ∧
        (kernel.proc parent).pid < entry.pid) :
    Family next := by
  have living : ∀ q, (kernel.proc q).living → q ≠ p ∧
      next.proc q = kernel.proc q := by
    intro q living
    have other : q ≠ p := by
      rintro rfl
      exact idle living
    exact ⟨other, by rw [proc, Function.update_of_ne other]⟩
  constructor
  case first =>
    rcases family.first with ⟨first, here, lives, pid, none⟩
    refine ⟨first, init.trans here, ?_⟩
    rw [(living first lives).2]
    exact ⟨lives, pid, none⟩
  case free =>
    intro q unused
    by_cases same : q = p
    · subst same
      rw [proc, Function.update_self] at unused ⊢
      exact free unused
    · rw [proc, Function.update_of_ne same] at unused ⊢
      exact family.free q unused
  case parents =>
    intro q used other
    rw [init] at other
    by_cases same : q = p
    · subst same
      rw [proc, Function.update_self] at used ⊢
      rcases parents used with ⟨parent, _, here, lives, older⟩
      have kept := (living parent lives).2
      rw [proc] at kept
      exact ⟨parent, here, kept ▸ lives, kept ▸ older⟩
    · rw [proc, Function.update_of_ne same] at used ⊢
      rcases family.parents q used other with ⟨parent, here, lives, older⟩
      have kept := (living parent lives).2
      rw [proc] at kept
      exact ⟨parent, here, kept ▸ lives, kept ▸ older⟩

/-- A process that exits leaves its children to the first one. -/
theorem exit (family : Family kernel) (pids : Pids kernel) {p : Fin n}
    (status : Int) (running : (kernel.proc p).state = .running)
    (other : kernel.initproc ≠ some p)
    (proc : next.proc = Scheduling.exit status kernel.initproc p kernel.proc)
    (init : next.initproc = kernel.initproc) : Family next := by
  rcases family.first with ⟨first, here, lives, one, none⟩
  have entry : ∀ q, ExitEntry status kernel.initproc p q (kernel.proc q)
      (next.proc q) := by
    intro q
    rw [proc]
    exact exit_entry status kernel.initproc p kernel.proc q
  have unused : ∀ q, (next.proc q).state = .unused ↔
      (kernel.proc q).state = .unused := by
    intro q
    by_cases same : q = p
    · subst same
      rw [((entry q).leaves rfl).1, running]
      decide
    · exact ((entry q).others same).state_eq_iff (by decide) (by decide)
  have living : ∀ q, q ≠ p → (kernel.proc q).living →
      (next.proc q).living := by
    intro q apart living
    have stirred := (entry q).others apart
    exact ⟨fun free => living.1
        ((stirred.state_eq_iff (by decide) (by decide)).mp free),
      fun zombie => living.2
        ((stirred.state_eq_iff (by decide) (by decide)).mp zombie)⟩
  have notFirst : first ≠ p := by
    rintro rfl
    exact other here
  constructor
  case first =>
    refine ⟨first, init.trans here, living first notFirst lives,
      (entry first).pid.trans one, ?_⟩
    rw [(entry first).parent, none, if_neg nofun]
  case free =>
    intro q free
    rw [(entry q).parent, family.free q ((unused q).mp free), if_neg nofun]
  case parents =>
    intro q used later
    rw [init] at later
    rw [(entry q).parent, (entry q).pid]
    have usedBefore := fun free => used ((unused q).mpr free)
    rcases family.parents q usedBefore later with
      ⟨parent, child, livesParent, older⟩
    by_cases handed : (kernel.proc q).parent = some p
    · refine ⟨first, by rw [if_pos handed, here], living first notFirst lives,
        ?_⟩
      -- every other process is younger than the first
      rw [(entry first).pid, one]
      have bounds := pids.used q usedBefore
      have apart : (kernel.proc q).pid ≠ 1 := by
        intro same
        have equal := pids.apart q first usedBefore lives.1
          (same.trans one.symm)
        exact later (equal ▸ here)
      omega
    · have apart : parent ≠ p := by
        rintro rfl
        exact handed child
      refine ⟨parent, by rw [if_neg handed, child],
        living parent apart livesParent, ?_⟩
      rw [(entry parent).pid]
      exact older

theorem step (family : Family kernel) (sound : Sound kernel)
    (pids : Pids kernel) {c : Fin cpus} {op : Op n}
    (taken : Taken kernel c op next) : Family next := by
  have running := sound.running c
  cases taken with
  | stay => exact family
  | dispatch p idle chosen =>
      have runnable := scanSoFar_scan kernel.proc
      rw [chosen] at runnable
      exact family.update rfl rfl (by simp [runnable.1])
        (by simp [runnable.1])
  | wakeup chan =>
      refine family.keep rfl fun p => ?_
      have stirred := stirred_wakeup (some chan) (kernel.cpu c) kernel.proc p
      exact ⟨stirred.pid, parent_wakeup _ _ _ p,
        stirred.state_eq_iff (by decide) (by decide),
        stirred.state_eq_iff (by decide) (by decide)⟩
  | preempt op p accumulator busy tick =>
      exact family.update rfl rfl (by simp [running p busy])
        (by simp [running p busy])
  | fork memory p np busy unused =>
      have runs := running p busy
      have used : (kernel.proc p).state ≠ .unused := by rw [runs]; decide
      refine family.replace rfl rfl (fun living => living.1 unused)
        (by simp [forkedProc]) fun _ => ⟨p, ?_, rfl, ⟨used, ?_⟩, ?_⟩
      · rintro rfl
        exact used unused
      · rw [runs]
        decide
      · exact (pids.used p used).2
  | forkFails memory p np busy unused =>
      exact family.replace rfl rfl (fun living => living.1 unused)
        (fun _ => rfl) (fun used => absurd rfl used)
  | sleep chan p busy =>
      exact family.update rfl rfl (by simp [running p busy])
        (by simp [running p busy])
  | block addr copyout p busy blocked =>
      exact family.update rfl rfl (by simp [running p busy])
        (by simp [running p busy])
  | exit op status p busy other exits =>
      exact family.exit pids status (running p busy) other rfl rfl
  | reap addr copyout p child busy reaped =>
      exact family.replace rfl rfl
        (fun living => living.2 (waitScan_reaped reaped))
        (fun _ => rfl) (fun used => absurd rfl used)
  | kill pid p victim busy found =>
      refine family.update rfl rfl ?_ ?_
      all_goals
        split
        · next asleep => simp [asleep]
        · rfl
  | setPsPriority priority p busy =>
      exact family.update rfl rfl Iff.rfl Iff.rfl

end Family

theorem family_of_reachable (reached : (kernelSystem n cpus).Reachable kernel) :
    Family kernel := by
  refine reached.invariant Family ?_ ?_
  · intro kernel started
    rcases userinit_cases started with ⟨p, rfl⟩
    constructor
    case first =>
      exact ⟨p, rfl, by
        simp [Proc.living, Kernel.allocated, freshProc, procinit]⟩
    case free =>
      intro q unused
      by_cases same : q = p
      · subst same
        simp [Kernel.allocated] at unused
      · simp [Kernel.allocated, same, procinit]
    case parents =>
      intro q used other
      by_cases same : q = p
      · exact absurd (congrArg some same.symm) other
      · simp [Kernel.allocated, same, procinit] at used
  · intro kernel label next before family taken
    exact family.step (sound_of_reachable before) (pids_of_reachable before)
      (taken_of_exec taken)

/-! ## The tree -/

/-- The second process is the parent of the first. -/
def ParentOf (kernel : Kernel n cpus) (child parent : Fin n) : Prop :=
  (kernel.proc child).parent = some parent

/-- The processes in use are a tree whose root is the first process. -/
structure FamilyTree (kernel : Kernel n cpus) : Prop where
  root : ∃ init, kernel.initproc = some init ∧ (kernel.proc init).living ∧
    ∀ p, (kernel.proc p).state ≠ .unused →
      Relation.ReflTransGen (ParentOf kernel) p init
  edge : ∀ child parent, ParentOf kernel child parent →
    (kernel.proc child).state ≠ .unused ∧ (kernel.proc parent).living
  acyclic : ∀ p, ¬ Relation.TransGen (ParentOf kernel) p p

namespace Family

/-- The parents of a process lead to the first one. -/
theorem reaches (family : Family kernel) (pids : Pids kernel) {init : Fin n}
    (first : kernel.initproc = some init) (bound : Nat) {p : Fin n}
    (used : (kernel.proc p).state ≠ .unused)
    (small : (kernel.proc p).pid ≤ bound) :
    Relation.ReflTransGen (ParentOf kernel) p init := by
  -- ids fall along the parents and are positive
  induction bound generalizing p with
  | zero =>
      have positive := (pids.used p used).1
      omega
  | succ bound induction =>
      by_cases here : kernel.initproc = some p
      · rw [first, Option.some.injEq] at here
        rw [here]
      · rcases family.parents p used here with ⟨parent, child, lives, older⟩
        refine .head child (induction lives.1 ?_)
        omega

theorem older_of_transGen (family : Family kernel) {p q : Fin n}
    (above : Relation.TransGen (ParentOf kernel) p q) :
    (kernel.proc q).pid < (kernel.proc p).pid := by
  induction above with
  | single child => exact (family.living_parent child).2
  | tail _ child induction =>
      exact Int.lt_trans (family.living_parent child).2 induction

end Family

/--
In every run the processes in use are a tree: the parents of each lead to the
first process, which lives, and every parent lives, so a zombie has no children
and nobody is left without a parent that can wait for it.
-/
theorem familyTree_of_reachable
    (reached : (kernelSystem n cpus).Reachable kernel) :
    FamilyTree kernel := by
  have family := family_of_reachable reached
  have pids := pids_of_reachable reached
  constructor
  case root =>
    rcases family.first with ⟨init, first, lives, _⟩
    refine ⟨init, first, lives, fun p used => ?_⟩
    exact family.reaches pids first _ used (Int.self_le_toNat _)
  case edge =>
    intro child parent link
    refine ⟨fun unused => ?_, (family.living_parent link).1⟩
    rw [ParentOf, family.free child unused] at link
    cases link
  case acyclic =>
    intro p cycle
    exact Int.lt_irrefl _ (family.older_of_transGen cycle)

/-- The first process has forked. -/
theorem familyTree_forked : FamilyTree forked :=
  familyTree_of_reachable reachable_forked.of_guarded

end OSCourse.Scheduling
