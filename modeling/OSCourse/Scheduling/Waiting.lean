import OSCourse.Scheduling.Family

/-!
# Parents that wait

`wait` sleeps on the address of its process, and in the kernel nothing else
sleeps on the address of a process.  In every run that keeps to this, a process
that sleeps in `wait` has a child and none of its children is a zombie, whatever
order children exit and are handed over in.  So the wake-ups of `exit` are never
lost, and below a process that waits there is a living one that does not.
`wait` is one step here, from its test of `killed` to its sleep.
-/

namespace OSCourse.Scheduling

open OSCourse.Library.TransitionSystem

variable {n cpus : Nat} {kernel next : Kernel n cpus}

/-- The process sleeps on its own address, as `wait` does. -/
def InWait (table : Table n) (p : Fin n) : Prop :=
  (table p).state = .sleeping ∧ (table p).chan = some (.proc p)

/-- Only `wait` sleeps on the address of a process. -/
def OnlyWaitOnProcs (_ : Kernel n cpus) (label : Fin cpus × Op n) : Prop :=
  ∀ p, label.2 ≠ .sleep (.proc p)

/-- Whoever sleeps in `wait` is not killed, has children, and none of them has
exited. -/
def WaitsWell (kernel : Kernel n cpus) : Prop :=
  ∀ p, InWait kernel.proc p →
    (kernel.proc p).killed = false ∧
      (∃ child, ParentOf kernel child p) ∧
        ∀ child, ParentOf kernel child p →
          (kernel.proc child).state ≠ .zombie

/-! ## What `wait` finds -/

/-- `wait` frees a child of its process. -/
theorem waitScan_parent {addr : BitVec 64} {copyout : Bool} {p child : Fin n}
    {table : Table n}
    (reaped : waitScan addr copyout p table = .reaped child) :
    (table child).parent = some p := by
  unfold waitScan at reaped
  split at reaped
  · next found search =>
    split at reaped
    · cases reaped
    · cases reaped
      have matched := List.find?_some search
      simp only [decide_eq_true_eq] at matched
      exact matched.1
  · split at reaped <;> cases reaped

/-- `wait` sleeps if its process is not killed and has children, none of them a
zombie. -/
theorem waitScan_blocked {addr : BitVec 64} {copyout : Bool} {p : Fin n}
    {table : Table n}
    (blocked : waitScan addr copyout p table = .blocked) :
    (table p).killed = false ∧ (∃ child, (table child).parent = some p) ∧
      ∀ child, (table child).parent = some p →
        (table child).state ≠ .zombie := by
  unfold waitScan at blocked
  split at blocked
  · split at blocked <;> cases blocked
  · next none =>
    split at blocked
    · next ready =>
      refine ⟨ready.2, ready.1, fun child link zombie => ?_⟩
      have missed := List.find?_eq_none.mp none child (List.mem_finRange child)
      simp [link, zombie] at missed
    · cases blocked

/-! ## The invariant -/

namespace WaitsWell

/-- Nobody starts to wait, and to those who wait nothing happens. -/
theorem keep (waits : WaitsWell kernel)
    (still : ∀ p, InWait next.proc p →
      InWait kernel.proc p ∧
        (next.proc p).killed = (kernel.proc p).killed)
    (children : ∀ p, InWait next.proc p → ∀ q,
      ParentOf next q p ↔ ParentOf kernel q p)
    (alive : ∀ p, InWait next.proc p → ∀ q, ParentOf kernel q p →
      (next.proc q).state = .zombie → (kernel.proc q).state = .zombie) :
    WaitsWell next := by
  intro p inWait
  rcases still p inWait with ⟨before, killed⟩
  rcases waits p before with ⟨clear, ⟨child, link⟩, none⟩
  refine ⟨killed.trans clear, ⟨child, (children p inWait child).mpr link⟩, ?_⟩
  intro q link zombie
  have linkBefore := (children p inWait q).mp link
  exact none q linkBefore (alive p inWait q linkBefore zombie)

/-- One entry changes; it does not wait afterwards, nobody who waits is its
parent before or after, or it keeps its parent and does not exit. -/
theorem update (waits : WaitsWell kernel) {p : Fin n} {entry : Proc n}
    (proc : next.proc = Function.update kernel.proc p entry)
    (leaves : ¬ InWait next.proc p)
    (parent : ∀ q, InWait kernel.proc q →
      (entry.parent = some q ↔ (kernel.proc p).parent = some q) ∧
        (entry.state = .zombie → (kernel.proc p).state = .zombie)) :
    WaitsWell next := by
  have others : ∀ q, q ≠ p → next.proc q = kernel.proc q := by
    intro q other
    rw [proc, Function.update_of_ne other]
  have here : next.proc p = entry := by
    rw [proc, Function.update_self]
  have before : ∀ q, InWait next.proc q →
      q ≠ p ∧ InWait kernel.proc q := by
    intro q inWait
    have other : q ≠ p := by
      rintro rfl
      exact leaves inWait
    exact ⟨other, by simpa only [InWait, others q other] using inWait⟩
  refine waits.keep ?_ ?_ ?_
  · intro q inWait
    rcases before q inWait with ⟨other, waited⟩
    exact ⟨waited, by rw [others q other]⟩
  · intro q inWait r
    rcases before q inWait with ⟨_, waited⟩
    unfold ParentOf
    by_cases same : r = p
    · subst same
      rw [here]
      exact (parent q waited).1
    · rw [others r same]
  · intro q inWait r _ zombie
    rcases before q inWait with ⟨_, waited⟩
    by_cases same : r = p
    · subst same
      rw [here] at zombie
      exact (parent q waited).2 zombie
    · rwa [others r same] at zombie

/-- A process starts to wait. -/
theorem block (waits : WaitsWell kernel) {p : Fin n} {chan : Chan n}
    (proc : next.proc = Scheduling.sleep chan p kernel.proc)
    (clear : (kernel.proc p).killed = false)
    (child : ∃ child, ParentOf kernel child p)
    (none : ∀ child, ParentOf kernel child p →
      (kernel.proc child).state ≠ .zombie) : WaitsWell next := by
  have parent : ∀ q, (next.proc q).parent = (kernel.proc q).parent := by
    intro q
    by_cases same : q = p <;> simp [proc, Scheduling.sleep, same]
  have killed : ∀ q, (next.proc q).killed = (kernel.proc q).killed := by
    intro q
    by_cases same : q = p <;> simp [proc, Scheduling.sleep, same]
  have zombie : ∀ q, (next.proc q).state = .zombie →
      (kernel.proc q).state = .zombie := by
    intro q
    by_cases same : q = p <;> simp [proc, Scheduling.sleep, same]
  intro q inWait
  have before : (kernel.proc q).killed = false ∧
      (∃ child, ParentOf kernel child q) ∧
        ∀ child, ParentOf kernel child q →
          (kernel.proc child).state ≠ .zombie := by
    by_cases same : q = p
    · exact same ▸ ⟨clear, child, none⟩
    · refine waits q ?_
      simpa [InWait, proc, Scheduling.sleep, same] using inWait
  rcases before with ⟨clear, ⟨child, link⟩, none⟩
  refine ⟨(killed q).trans clear, ⟨child, (parent child).trans link⟩, ?_⟩
  intro r linkR exited
  exact none r ((parent r).symm.trans linkR) (zombie r exited)

/-- A process that exits leaves nobody who waits with a zombie. -/
theorem exit (waits : WaitsWell kernel) {p : Fin n} (status : Int)
    (proc : next.proc =
      Scheduling.exit status kernel.initproc p kernel.proc) :
    WaitsWell next := by
  have entry : ∀ q, ExitEntry status kernel.initproc p q (kernel.proc q)
      (next.proc q) := by
    intro q
    rw [proc]
    exact exit_entry status kernel.initproc p kernel.proc q
  have other : ∀ q, InWait next.proc q → q ≠ p := by
    rintro q ⟨asleep, _⟩ rfl
    rw [((entry q).leaves rfl).1] at asleep
    cases asleep
  -- who has a new child or a child that exits has been woken
  have noNews : ∀ q, InWait next.proc q → ∀ r, ParentOf next r q →
      ¬ (r = p ∨ (kernel.proc r).parent = some p) := by
    intro q inWait r link news
    rw [ParentOf, proc] at link
    refine exit_wakes status kernel.initproc p kernel.proc (other q inWait)
      link news ⟨?_, ?_⟩
    · simpa using other q inWait
    · rw [← proc]
      exact inWait
  refine waits.keep ?_ ?_ ?_
  · intro q inWait
    have stirred := (entry q).others (other q inWait)
    refine ⟨⟨?_, stirred.chan ▸ inWait.2⟩, stirred.killed⟩
    rcases stirred.state with same | ⟨_, awake⟩
    · exact same ▸ inWait.1
    · rw [inWait.1] at awake
      cases awake
  · intro q inWait r
    have parents := (entry r).parent
    by_cases handed : (kernel.proc r).parent = some p
    · refine ⟨fun link => absurd (.inr handed) (noNews q inWait r link), ?_⟩
      intro link
      rw [ParentOf, handed, Option.some.injEq] at link
      exact absurd link.symm (other q inWait)
    · rw [if_neg handed] at parents
      simp only [ParentOf, parents]
  · intro q inWait r link zombie
    by_cases same : r = p
    · have handed : (kernel.proc r).parent ≠ some p := by
        rw [ParentOf] at link
        rw [link, Ne, Option.some.injEq]
        exact other q inWait
      have linkNext : ParentOf next r q := by
        rw [ParentOf, (entry r).parent, if_neg handed]
        exact link
      exact absurd (.inl same) (noNews q inWait r linkNext)
    · exact (((entry r).others same).state_eq_iff (by decide)
        (by decide)).mp zombie

theorem step (waits : WaitsWell kernel) (sound : Sound kernel)
    (family : Family kernel) {c : Fin cpus} {op : Op n}
    (taken : Taken kernel c op next)
    (guarded : OnlyWaitOnProcs kernel (c, op)) : WaitsWell next := by
  have awake : ∀ p, kernel.cpu c = some p → ∀ q, InWait kernel.proc q →
      q ≠ p := by
    rintro p busy q ⟨asleep, _⟩ rfl
    rw [sound.running c q busy] at asleep
    cases asleep
  have running := sound.running c
  cases taken with
  | stay => exact waits
  | dispatch p idle chosen =>
      exact waits.update rfl (by simp [InWait, Scheduling.dispatch])
        fun _ _ => ⟨Iff.rfl, by simp⟩
  | wakeup chan =>
      have stirred := stirred_wakeup (some chan) (kernel.cpu c) kernel.proc
      refine waits.keep ?_ ?_ ?_
      · intro p inWait
        refine ⟨⟨?_, (stirred p).chan ▸ inWait.2⟩, (stirred p).killed⟩
        rcases (stirred p).state with same | ⟨_, awake⟩
        · exact same ▸ inWait.1
        · rw [inWait.1] at awake
          cases awake
      · intro p _ q
        simp only [ParentOf, parent_wakeup]
      · intro p _ q _ zombie
        exact ((stirred q).state_eq_iff (by decide) (by decide)).mp zombie
  | preempt op p accumulator busy tick =>
      exact waits.update rfl (by simp [InWait, Kernel.switched])
        fun _ _ => ⟨Iff.rfl, by simp⟩
  | fork memory p np busy unused =>
      refine waits.update rfl (by simp [InWait, Kernel.allocated, forkedProc])
        fun q inWait => ⟨?_, by simp [forkedProc]⟩
      rw [family.free np unused]
      simpa [forkedProc] using Ne.symm (awake p busy q inWait)
  | forkFails memory p np busy unused =>
      refine waits.update rfl (by simp [InWait, Kernel.allocated, freeproc])
        fun q inWait => ⟨?_, by simp [freeproc]⟩
      rw [family.free np unused]
      simp [freeproc]
  | sleep chan p busy =>
      refine waits.update rfl ?_ fun _ _ => ⟨Iff.rfl, by simp⟩
      rintro ⟨_, on⟩
      simp only [Kernel.switched, Scheduling.sleep, Function.update_self,
        Option.some.injEq] at on
      exact guarded p (congrArg Op.sleep on)
  | block addr copyout p busy blocked =>
      rcases waitScan_blocked blocked with ⟨clear, child, none⟩
      exact waits.block rfl clear child none
  | exit op status p busy other exits => exact waits.exit status rfl
  | reap addr copyout p child busy reaped =>
      refine waits.update rfl (by simp [InWait, freeproc])
        fun q inWait => ⟨?_, by simp [freeproc]⟩
      have link := waitScan_parent reaped
      rw [link]
      simpa [freeproc] using Ne.symm (awake p busy q inWait)
  | kill pid p victim busy found =>
      refine waits.update rfl ?_ fun _ _ => ⟨Iff.rfl, ?_⟩
      · rintro ⟨asleep, _⟩
        simp only [Function.update_self] at asleep
        split at asleep
        · cases asleep
        · next other => exact other asleep
      · intro zombie
        simp only at zombie
        split at zombie
        · cases zombie
        · exact zombie
  | setPsPriority priority p busy =>
      refine waits.update rfl ?_ fun _ _ => ⟨Iff.rfl, fun zombie => zombie⟩
      rintro ⟨asleep, _⟩
      simp only [Function.update_self] at asleep
      rw [running p busy] at asleep
      cases asleep

end WaitsWell

theorem waitsWell_of_reachable
    (reached : ((kernelSystem n cpus).guarded OnlyWaitOnProcs).Reachable
      kernel) : WaitsWell kernel := by
  refine reached.invariant WaitsWell ?_ ?_
  · intro kernel started p inWait
    rcases userinit_cases started with ⟨q, rfl⟩
    by_cases same : p = q
    · subst same
      simp [InWait, Kernel.allocated] at inWait
    · simp [InWait, Kernel.allocated, same, procinit] at inWait
  · rintro kernel ⟨c, op⟩ next before waits ⟨guarded, taken⟩
    exact waits.step (sound_of_reachable before.of_guarded)
      (family_of_reachable before.of_guarded) (taken_of_exec taken) guarded

/-! ## Below a process that waits -/

/-- A descendant that lives and does not wait for its own children. -/
theorem WaitsWell.busy_descendant (waits : WaitsWell kernel)
    (family : Family kernel) (pids : Pids kernel) (bound : Nat) {p : Fin n}
    (inWait : InWait kernel.proc p)
    (near : kernel.nextpid ≤ (kernel.proc p).pid + bound) :
    ∃ d, Relation.TransGen (ParentOf kernel) d p ∧
      (kernel.proc d).living ∧ ¬ InWait kernel.proc d := by
  -- ids grow from parent to child and stay below `nextpid`
  induction bound generalizing p with
  | zero =>
      have used : (kernel.proc p).state ≠ .unused := by
        rw [inWait.1]
        decide
      have below := (pids.used p used).2
      omega
  | succ bound induction =>
      rcases (waits p inWait).2 with ⟨⟨child, link⟩, none⟩
      have younger := (family.living_parent link).2
      have used : (kernel.proc child).state ≠ .unused := by
        intro unused
        rw [ParentOf, family.free child unused] at link
        cases link
      by_cases also : InWait kernel.proc child
      · rcases induction also (by omega) with ⟨d, below, lives, busy⟩
        exact ⟨d, below.tail link, lives, busy⟩
      · exact ⟨child, .single link, ⟨used, none child link⟩, also⟩

/--
In every run in which only `wait` sleeps on the address of a process, a process
that sleeps in `wait` is not killed, none of its children is a zombie, and one
of its descendants lives and does not sleep in `wait`.
-/
theorem wait_sleeps_safely
    (reached : ((kernelSystem n cpus).guarded OnlyWaitOnProcs).Reachable
      kernel)
    {p : Fin n} (inWait : InWait kernel.proc p) :
    (kernel.proc p).killed = false ∧
      (∀ child, ParentOf kernel child p →
        (kernel.proc child).state ≠ .zombie) ∧
      ∃ d, Relation.TransGen (ParentOf kernel) d p ∧
        (kernel.proc d).living ∧ ¬ InWait kernel.proc d := by
  have waits := waitsWell_of_reachable reached
  have pids := pids_of_reachable reached.of_guarded
  have used : (kernel.proc p).state ≠ .unused := by
    rw [inWait.1]
    decide
  have positive := (pids.used p used).1
  rcases waits p inWait with ⟨clear, _, none⟩
  refine ⟨clear, none, waits.busy_descendant
    (family_of_reachable reached.of_guarded) pids kernel.nextpid.toNat inWait
    ?_⟩
  have small := Int.self_le_toNat kernel.nextpid
  omega

/-- The first process waits for its child. -/
def waiting : Kernel 2 1 :=
  (exec forked onlyCpu (.wait 1 true)).get (by decide)

theorem reachable_waiting :
    ((kernelSystem 2 1).guarded OnlyWaitOnProcs).Reachable waiting := by
  have boot : ((kernelSystem 2 1).guarded OnlyWaitOnProcs).Reachable booted :=
    .start (Option.some_get _).symm
  have runs : ∀ {kernel : Kernel 2 1} (op : Op 2)
      (enabled : (exec kernel onlyCpu op).isSome),
      (∀ p, op ≠ .sleep (.proc p)) →
      ((kernelSystem 2 1).guarded OnlyWaitOnProcs).Reachable kernel →
        ((kernelSystem 2 1).guarded OnlyWaitOnProcs).Reachable
          ((exec kernel onlyCpu op).get enabled) :=
    fun {kernel} op enabled other reached =>
      have taken : ((kernelSystem 2 1).guarded OnlyWaitOnProcs).step kernel
          (onlyCpu, op) ((exec kernel onlyCpu op).get enabled) :=
        ⟨other, (Option.some_get enabled).symm⟩
      reached.step taken
  exact runs (.wait 1 true) (by decide) nofun
    (runs (.fork ⟨true, true, true⟩) (by decide) nofun
      (runs .schedule (by decide) nofun boot))

theorem wait_sleeps_safely_waiting :
    InWait waiting.proc 0 ∧
      (waiting.proc 0).killed = false ∧
      (∀ child, ParentOf waiting child 0 →
        (waiting.proc child).state ≠ .zombie) ∧
      ∃ d, Relation.TransGen (ParentOf waiting) d 0 ∧
        (waiting.proc d).living ∧ ¬ InWait waiting.proc d :=
  ⟨⟨by decide, by decide⟩,
    wait_sleeps_safely reachable_waiting ⟨by decide, by decide⟩⟩

end OSCourse.Scheduling
