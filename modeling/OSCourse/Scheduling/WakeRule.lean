import OSCourse.Scheduling.Fairness

/-!
# The accumulator of a process that becomes RUNNABLE

`fork` and `wakeup` give the process that becomes RUNNABLE the minimum of the
active processes.  `kill` only changes the state of its victim, so a sleeping
victim comes back with the accumulator it had when it fell asleep.
-/

namespace OSCourse.Scheduling

open OSCourse.Library.TransitionSystem

variable {n cpus : Nat}

/-! ## Legal tables on any number of processors -/

theorem Legal.wakeup
    {table : Table n} (legal : Legal table)
    (chan : Option (Chan n)) (me : Option (Fin n)) :
    Legal (wakeup chan me table) := by
  rcases exists_isLeastOrZero table with ⟨least, minimum⟩
  rw [wakeup_eq_wakeAll legal.nonneg minimum]
  refine ⟨legal.nonneg.wakeAll (minimum.nonneg legal.nonneg), ?_⟩
  intro p allocated
  unfold wakeAll at allocated ⊢
  split
  · rename_i woken
    exact legal.priority p (by rw [woken.2.1]; decide)
  · rename_i other
    rw [if_neg other] at allocated
    exact legal.priority p allocated

theorem Legal.reparent
    {table : Table n} (legal : Legal table)
    (initproc : Option (Fin n)) (p : Fin n) :
    Legal (reparent initproc p table) := by
  unfold Scheduling.reparent
  generalize List.finRange n = entries
  induction entries generalizing table with
  | nil => exact legal
  | cons pp rest ih =>
      apply ih
      unfold reparentStep
      split
      · apply Legal.wakeup
        exact legal.update pp (legal.nonneg pp) (legal.priority pp)
      · exact legal

/-- An entry that only changes its state stays legal unless it was UNUSED. -/
theorem Legal.setState
    {table : Table n} (legal : Legal table) (p : Fin n) {entry : Proc n}
    (allocated : (table p).state ≠ .unused)
    (accumulator : entry.accumulator = (table p).accumulator)
    (priority : entry.psPriority = (table p).psPriority) :
    Legal (Function.update table p entry) := by
  refine legal.update p ?_ ?_
  · rw [accumulator]
    exact legal.nonneg p
  · intro _
    rw [priority]
    exact legal.priority p allocated

theorem Legal.freeproc
    {table : Table n} (legal : Legal table) (p : Fin n) :
    Legal (Function.update table p (freeproc (table p))) :=
  legal.update p (legal.nonneg p) (by simp [Scheduling.freeproc])

theorem Legal.fork
    {kernel : Kernel n cpus} (legal : Legal kernel.proc)
    (memory : Memory) (p : Fin n) :
    Legal (fork memory p kernel).proc := by
  have least : ∀ np, (kernel.proc np).state = .unused →
      0 ≤ getMinAccumulator kernel.proc np := by
    intro np unused
    have inactive : ¬ (kernel.proc np).active :=
      Proc.not_active (by simp [unused]) (by simp [unused])
    exact (getMinAccumulator_isLeast_all legal.nonneg inactive).nonneg
      legal.nonneg
  rcases fork_cases memory p kernel with
    same | ⟨np, unused, freed | forked⟩
  · rw [same]
    exact legal
  · rw [freed]
    exact legal.update np (least np unused) (by simp [Scheduling.freeproc])
  · rw [forked]
    exact legal.update np (least np unused)
      (by simp [forkedProc, freshProc, maxPriority])

/-! ## The invariant of every run -/

/--
What holds in every run on any number of processors: the table is legal, and
every processor that is not idle runs a RUNNING process of its own.
-/
structure Sound (kernel : Kernel n cpus) : Prop where
  legal : Legal kernel.proc
  running : ∀ c p, kernel.cpu c = some p →
    (kernel.proc p).state = .running
  apart : ∀ c d p, kernel.cpu c = some p → kernel.cpu d = some p → c = d

/-- RUNNING processes other than those of `except` stay RUNNING. -/
def KeepsRunning (except : Fin n → Prop) (before after : Table n) : Prop :=
  ∀ p, ¬ except p → (before p).state = .running →
    (after p).state = .running

theorem KeepsRunning.refl (except : Fin n → Prop) (table : Table n) :
    KeepsRunning except table table :=
  fun _ _ running => running

theorem KeepsRunning.trans
    {except : Fin n → Prop} {first second third : Table n}
    (left : KeepsRunning except first second)
    (right : KeepsRunning except second third) :
    KeepsRunning except first third :=
  fun p free running => right p free (left p free running)

theorem KeepsRunning.update
    {except : Fin n → Prop} (table : Table n) (p : Fin n) {entry : Proc n}
    (kept : ¬ except p → (table p).state = .running →
      entry.state = .running) :
    KeepsRunning except table (Function.update table p entry) := by
  intro q free running
  by_cases same : q = p
  · subst same
    rw [Function.update_self]
    exact kept free running
  · rw [Function.update_of_ne same]
    exact running

theorem keepsRunning_foldl
    {except : Fin n → Prop} {body : Table n → Fin n → Table n}
    (kept : ∀ table p, KeepsRunning except table (body table p))
    (entries : List (Fin n)) (table : Table n) :
    KeepsRunning except table (entries.foldl body table) := by
  induction entries generalizing table with
  | nil => exact .refl except table
  | cons p rest ih => exact (kept table p).trans (ih (body table p))

theorem keepsRunning_wakeup
    (except : Fin n → Prop) (chan : Option (Chan n)) (me : Option (Fin n))
    (table : Table n) :
    KeepsRunning except table (wakeup chan me table) := by
  refine keepsRunning_foldl ?_ _ table
  intro table p
  unfold wakeupStep
  split
  · exact .refl except table
  · split
    · rename_i asleep
      apply KeepsRunning.update
      intro _ running
      rw [asleep.1] at running
      cases running
    · exact .refl except table

theorem keepsRunning_reparent
    (except : Fin n → Prop) (initproc : Option (Fin n)) (p : Fin n)
    (table : Table n) :
    KeepsRunning except table (reparent initproc p table) := by
  refine keepsRunning_foldl ?_ _ table
  intro table pp
  unfold reparentStep
  split
  · refine KeepsRunning.trans ?_ (keepsRunning_wakeup except _ _ _)
    exact .update table pp (fun _ running => running)
  · exact .refl except table

theorem keepsRunning_exit
    (status : Int) (initproc : Option (Fin n)) (p : Fin n)
    (table : Table n) :
    KeepsRunning (fun q => q = p) table (exit status initproc p table) := by
  refine (keepsRunning_reparent _ initproc p table).trans ?_
  refine (keepsRunning_wakeup _
    ((reparent initproc p table p).parent.map .proc) (some p) _).trans ?_
  exact .update _ p (fun other => absurd rfl other)

theorem Legal.exit
    {table : Table n} (legal : Legal table) {p : Fin n}
    (isRunning : (table p).state = .running)
    (status : Int) (initproc : Option (Fin n)) :
    Legal (exit status initproc p table) := by
  have reparented :=
    keepsRunning_reparent (fun _ => False) initproc p table
  unfold Scheduling.exit
  refine Legal.setState ((legal.reparent initproc p).wakeup _ _) p
    ?_ rfl rfl
  rw [keepsRunning_wakeup (fun _ => False) _ _ _ p not_false
    (reparented p not_false isRunning)]
  decide

/-- The processors stay as they are. -/
theorem Sound.table
    {kernel next : Kernel n cpus} (sound : Sound kernel)
    (sameCpus : next.cpu = kernel.cpu) (legal : Legal next.proc)
    (kept : KeepsRunning (fun _ => False) kernel.proc next.proc) :
    Sound next := by
  refine ⟨legal, ?_, ?_⟩
  · intro c p busy
    rw [sameCpus] at busy
    exact kept p not_false (sound.running c p busy)
  · rw [sameCpus]
    exact sound.apart

/-- The process `p` leaves the processor `c`. -/
theorem Sound.switched
    {kernel : Kernel n cpus} (sound : Sound kernel) {c : Fin cpus}
    {p : Fin n} (busy : kernel.cpu c = some p) {table : Table n}
    (legal : Legal table)
    (kept : KeepsRunning (fun q => q = p) kernel.proc table) :
    Sound (kernel.switched c table) := by
  have others : ∀ d q, (kernel.switched c table).cpu d = some q →
      d ≠ c ∧ kernel.cpu d = some q := by
    intro d q busyD
    by_cases same : d = c
    · subst same
      simp [Kernel.switched] at busyD
    · refine ⟨same, ?_⟩
      simpa [Kernel.switched, same] using busyD
  refine ⟨legal, ?_, ?_⟩
  · intro d q busyD
    rcases others d q busyD with ⟨different, before⟩
    refine kept q ?_ (sound.running d q before)
    rintro rfl
    exact different (sound.apart d c q before busy)
  · intro d e q busyD busyE
    exact sound.apart d e q (others d q busyD).2 (others e q busyE).2

theorem Sound.dispatch
    {kernel : Kernel n cpus} (sound : Sound kernel) (c : Fin cpus)
    {p : Fin n} (chosen : scan kernel.proc = some p) :
    Sound
      { kernel with
        proc := dispatch p kernel.proc
        cpu := Function.update kernel.cpu c (some p) } := by
  have found := scanSoFar_scan kernel.proc
  rw [chosen] at found
  have notRunning : ∀ d, kernel.cpu d ≠ some p := by
    intro d busy
    have running := sound.running d p busy
    rw [found.1] at running
    cases running
  refine ⟨sound.legal.setState p (by rw [found.1]; decide) rfl rfl, ?_, ?_⟩
  · intro d q busy
    by_cases same : q = p
    · subst same
      simp [Scheduling.dispatch]
    · have elsewhere : d ≠ c := by
        rintro rfl
        simp only [Function.update_self, Option.some.injEq] at busy
        exact same busy.symm
      simp only [Function.update_of_ne elsewhere] at busy
      simp only [Scheduling.dispatch, Function.update_of_ne same]
      exact sound.running d q busy
  · intro d e q busyD busyE
    dsimp only at busyD busyE
    by_cases atD : d = c
    · by_cases atE : e = c
      · rw [atD, atE]
      · subst atD
        rw [Function.update_self] at busyD
        rw [Function.update_of_ne atE, ← busyD] at busyE
        exact absurd busyE (notRunning e)
    · rw [Function.update_of_ne atD] at busyD
      by_cases atE : e = c
      · subst atE
        rw [Function.update_self] at busyE
        rw [← busyE] at busyD
        exact absurd busyD (notRunning d)
      · rw [Function.update_of_ne atE] at busyE
        exact sound.apart d e q busyD busyE

theorem legal_charge
    {table : Table n} (legal : Legal table) {p : Fin n}
    (isRunning : (table p).state = .running) :
    Legal (charge p table) := by
  rcases legal.priority p (by rw [isRunning]; decide) with ⟨positive, -⟩
  have nonneg := legal.nonneg p
  rw [charge, if_pos isRunning]
  refine legal.update p ?_ ?_
  · change 0 ≤ (table p).accumulator + (table p).psPriority
    omega
  · intro _
    exact legal.priority p (by rw [isRunning]; decide)

theorem Sound.exitOp
    {kernel next : Kernel n cpus} (sound : Sound kernel) {c : Fin cpus}
    {p : Fin n} (busy : kernel.cpu c = some p) {status : Int}
    (taken : exitOp kernel c p status = some next) :
    Sound next := by
  unfold Scheduling.exitOp at taken
  split at taken
  · contradiction
  · cases taken
    exact sound.switched busy
      (sound.legal.exit (sound.running c p busy) status kernel.initproc)
      (keepsRunning_exit status kernel.initproc p kernel.proc)

theorem Sound.runningOp
    {kernel next : Kernel n cpus} (sound : Sound kernel) {c : Fin cpus}
    {p : Fin n} (busy : kernel.cpu c = some p) {op : Op n}
    (taken : runningOp kernel c p op = some next) :
    Sound next := by
  have isRunning := sound.running c p busy
  have allocated : (kernel.proc p).state ≠ .unused := by
    rw [isRunning]
    decide
  have leaves : ∀ {entry : Proc n}, KeepsRunning (fun q => q = p)
      kernel.proc (Function.update kernel.proc p entry) :=
    .update kernel.proc p (fun other => absurd rfl other)
  cases op with
  | schedule => cases taken
  | userTick =>
      rw [Scheduling.runningOp] at taken
      split at taken
      · exact sound.exitOp busy taken
      · cases taken
        have charged := legal_charge sound.legal isRunning
        rw [charge, if_pos isRunning] at charged ⊢
        refine sound.switched busy ?_ ?_
        · exact charged.setState p (by simp [isRunning]) rfl rfl
        · rw [yield, Function.update_idem]
          exact leaves
  | kernelTick =>
      rw [Scheduling.runningOp, if_pos isRunning] at taken
      cases taken
      exact sound.switched busy
        (sound.legal.setState p allocated rfl rfl) leaves
  | fork memory =>
      cases taken
      refine sound.table ?_ (sound.legal.fork memory p) ?_
      · rcases fork_cases memory p kernel with
          same | ⟨np, -, freed | forked⟩
        · rw [same]
        · rw [freed]
          rfl
        · rw [forked]
          rfl
      · rcases fork_cases memory p kernel with
          same | ⟨np, unused, freed | forked⟩
        · rw [same]
          exact .refl _ _
        · rw [freed]
          refine .update _ np (fun _ running => ?_)
          rw [unused] at running
          cases running
        · rw [forked]
          refine .update _ np (fun _ running => ?_)
          rw [unused] at running
          cases running
  | sleep chan =>
      cases taken
      exact sound.switched busy
        (sound.legal.setState p allocated rfl rfl) leaves
  | wakeup chan =>
      cases taken
      exact sound.table rfl (sound.legal.wakeup _ _)
        (keepsRunning_wakeup _ _ _ _)
  | exit status => exact sound.exitOp busy taken
  | wait addr copyout =>
      rw [Scheduling.runningOp] at taken
      split at taken
      · rename_i child reaped
        cases taken
        refine sound.table rfl (sound.legal.freeproc child) ?_
        refine .update _ child (fun _ running => ?_)
        rw [waitScan_reaped reaped] at running
        cases running
      · cases taken
        exact sound
      · cases taken
        exact sound
      · cases taken
        exact sound.switched busy
          (sound.legal.setState p allocated rfl rfl) leaves
  | kill pid =>
      cases taken
      unfold Scheduling.kill
      split
      · exact sound
      · rename_i victim found
        refine sound.table rfl ?_ ?_
        · refine sound.legal.update victim (sound.legal.nonneg victim) ?_
          intro stillAllocated
          apply sound.legal.priority victim
          intro unused
          simp [unused] at stillAllocated
        · refine .update _ victim (fun _ running => ?_)
          simp [running]
  | setPsPriority priority =>
      cases taken
      unfold Scheduling.setPsPriority
      split
      · exact sound
      · rename_i valid
        refine sound.table rfl ?_ (.update _ p fun _ running => running)
        refine sound.legal.update p (sound.legal.nonneg p) ?_
        intro _
        change 1 ≤ priority ∧ priority ≤ maxPriority
        simp only [maxPriority]
        omega

theorem Sound.exec
    {kernel next : Kernel n cpus} (sound : Sound kernel) {c : Fin cpus}
    {op : Op n} (taken : exec kernel c op = some next) :
    Sound next := by
  unfold Scheduling.exec at taken
  split at taken
  · rename_i p busy
    exact sound.runningOp busy taken
  · split at taken
    · split at taken
      · cases taken
        exact sound
      · rename_i p chosen
        cases taken
        exact sound.dispatch c chosen
    · cases taken
      exact sound.table rfl (sound.legal.wakeup _ _)
        (keepsRunning_wakeup _ _ _ _)
    · contradiction

theorem sound_userinit
    {kernel : Kernel n cpus} (started : userinit = some kernel) :
    Sound kernel := by
  have legal : Legal (procinit : Kernel n cpus).proc :=
    ⟨fun _ => Int.le_refl 0, fun p allocated => absurd rfl allocated⟩
  unfold userinit at started
  rcases allocproc_cases ⟨true, true, true⟩ (procinit : Kernel n cpus) with
    failed | ⟨p, unused, allocated | freed⟩
  · rw [failed] at started
    contradiction
  · rw [allocated] at started
    cases started
    have inactive : ¬ ((procinit : Kernel n cpus).proc p).active :=
      Proc.not_active (by simp [procinit]) (by simp [procinit])
    have least :=
      (getMinAccumulator_isLeast_all legal.nonneg inactive).nonneg
        legal.nonneg
    refine ⟨?_, ?_, ?_⟩
    · simp only [Kernel.allocated, Function.update_idem,
        Function.update_self]
      exact legal.update p least (by simp [freshProc, maxPriority])
    · intro c q busy
      cases busy
    · intro c d q busy
      cases busy
  · rw [freed] at started
    contradiction

theorem sound_of_reachable
    {kernel : Kernel n cpus}
    (reached : (kernelSystem n cpus).Reachable kernel) :
    Sound kernel :=
  reached.invariant Sound (fun _ => sound_userinit)
    (fun _ _ _ _ sound taken => sound.exec taken)

/-! ## Becoming RUNNABLE -/

/-- The operations that make a process RUNNABLE that was not active. -/
inductive WakingOp (n : Nat) where
  | fork (memory : Memory)
  | wakeup (chan : Chan n)
  | kill (pid : Int)
deriving DecidableEq, Repr

/-- The operation as a step. -/
def WakingOp.op : WakingOp n → Op n
  | .fork memory => .fork memory
  | .wakeup chan => .wakeup chan
  | .kill pid => .kill pid

/--
A process that becomes RUNNABLE has at least the minimum accumulator of the
other processes that were active, when there are any.
-/
def RejoinRule (before after : Table n) : Prop :=
  ∀ q, ¬ (before q).active → (after q).state = .runnable →
    ∀ least, IsLeast before (fun p => p ≠ q) least →
      least ≤ (after q).accumulator

/--
The operation is a `kill` whose victim sleeps with an accumulator below those
of the other active processes, of which there is at least one.
-/
def KillsStale (table : Table n) (op : WakingOp n) : Prop :=
  ∃ pid victim,
    op = .kill pid ∧
      (List.finRange n).find? (fun p => (table p).pid = pid) =
        some victim ∧
      (table victim).state = .sleeping ∧
      (∃ p, p ≠ victim ∧ (table p).active) ∧
      ∀ p, p ≠ victim → (table p).active →
        (table victim).accumulator < (table p).accumulator

theorem RejoinRule.refl (table : Table n) : RejoinRule table table := by
  intro q inactive runnable
  exact absurd (Or.inl runnable) inactive

/-- Only `q` may have become RUNNABLE, and it did so with the minimum. -/
theorem RejoinRule.update
    {table : Table n} (nonneg : NonNeg table) {q : Fin n} {entry : Proc n}
    (least : entry.state = .runnable →
      entry.accumulator = getMinAccumulator table q) :
    RejoinRule table (Function.update table q entry) := by
  intro p inactive runnable
  by_cases same : p = q
  · subst same
    rw [Function.update_self] at runnable ⊢
    intro value minimum
    rw [least runnable, IsLeastOrZero.unique (Or.inl minimum)
      (getMinAccumulator_isLeast nonneg p)]
  · rw [Function.update_of_ne same] at runnable
    exact absurd (Or.inl runnable) inactive

theorem rejoinRule_fork
    {kernel : Kernel n cpus} (nonneg : NonNeg kernel.proc)
    (memory : Memory) (p : Fin n) :
    RejoinRule kernel.proc (fork memory p kernel).proc := by
  rcases fork_cases memory p kernel with
    same | ⟨np, -, freed | forked⟩
  · rw [same]
    exact .refl kernel.proc
  · rw [freed]
    exact .update nonneg (fun _ => rfl)
  · rw [forked]
    exact .update nonneg (fun _ => rfl)

theorem rejoinRule_wakeup
    {table : Table n} (nonneg : NonNeg table)
    (chan : Option (Chan n)) (me : Option (Fin n)) :
    RejoinRule table (wakeup chan me table) := by
  rcases exists_isLeastOrZero table with ⟨least, minimum⟩
  rw [wakeup_eq_wakeAll nonneg minimum]
  intro q inactive runnable value others
  by_cases woken : Woken table chan me q
  · have everyone : IsLeastOrZero table (fun _ => True) value := by
      left
      rcases others with ⟨⟨p, -, active, equal⟩, bound⟩
      refine ⟨⟨p, trivial, active, equal⟩, ?_⟩
      intro r _ activeR
      apply bound r _ activeR
      rintro rfl
      exact inactive activeR
    simp only [wakeAll, woken, if_true, wokenAt]
    exact le_of_eq (everyone.unique minimum)
  · simp only [wakeAll, woken, if_false] at runnable
    exact absurd (Or.inl runnable) inactive

theorem rejoinRule_kill_iff (table : Table n) (pid : Int) :
    RejoinRule table (kill pid table).2 ↔
      ¬ KillsStale table (.kill pid) := by
  constructor
  · rintro rule ⟨pid', victim, equal, found, asleep, ⟨p, other, active⟩,
      stale⟩
    cases equal
    have inactive : ¬ (table victim).active :=
      Proc.not_active (by simp [asleep]) (by simp [asleep])
    rcases Finset.exists_min_image
        (Finset.univ.filter fun q => q ≠ victim ∧ (table q).active)
        (fun q => (table q).accumulator) ⟨p, by simp [other, active]⟩ with
      ⟨best, member, bound⟩
    simp only [Finset.mem_filter, Finset.mem_univ, true_and] at member bound
    have low := rule victim inactive
      (by simp [Scheduling.kill, found, asleep])
      (table best).accumulator
      ⟨⟨best, member.1, member.2, rfl⟩,
        fun q otherQ activeQ => bound q ⟨otherQ, activeQ⟩⟩
    have high := stale best member.1 member.2
    have kept : ((Scheduling.kill pid table).2 victim).accumulator =
        (table victim).accumulator := by
      simp [Scheduling.kill, found]
    omega
  · intro fresh q inactive runnable least minimum
    unfold Scheduling.kill at runnable ⊢
    split at runnable
    · exact absurd (Or.inl runnable) inactive
    · rename_i victim found
      by_cases same : q = victim
      · subst same
        simp only [Function.update_self] at runnable ⊢
        have asleep : (table q).state = .sleeping := by
          by_contra awake
          simp only [awake, if_false] at runnable
          exact inactive (Or.inl runnable)
        by_contra low
        rcases minimum with ⟨⟨p, other, active, -⟩, bound⟩
        refine fresh ⟨pid, q, rfl, found, asleep, ⟨p, other, active⟩, ?_⟩
        intro r otherR activeR
        have above := bound r otherR activeR
        omega
      · simp only [Function.update_of_ne same] at runnable
        exact absurd (Or.inl runnable) inactive

theorem not_killsStale
    {table : Table n} {op : WakingOp n} (noKill : ∀ pid, op ≠ .kill pid) :
    ¬ KillsStale table op := by
  rintro ⟨pid, -, equal, -⟩
  exact noKill pid equal

/--
A step of `fork`, `wakeup` or `kill` respects the minimum exactly when it is
not a `kill` of a sleeper that has fallen behind the active processes.
-/
theorem rejoinRule_iff
    {kernel next : Kernel n cpus}
    (reached : (kernelSystem n cpus).Reachable kernel)
    (c : Fin cpus) (op : WakingOp n)
    (taken : exec kernel c op.op = some next) :
    RejoinRule kernel.proc next.proc ↔ ¬ KillsStale kernel.proc op := by
  have nonneg := (sound_of_reachable reached).legal.nonneg
  unfold Scheduling.exec at taken
  cases op with
  | fork memory =>
      have respects : RejoinRule kernel.proc next.proc := by
        split at taken
        · cases taken
          exact rejoinRule_fork nonneg memory _
        · cases taken
      exact iff_of_true respects (not_killsStale (by simp))
  | wakeup chan =>
      have respects : RejoinRule kernel.proc next.proc := by
        split at taken
        · cases taken
          exact rejoinRule_wakeup nonneg _ _
        · cases taken
          exact rejoinRule_wakeup nonneg _ _
      exact iff_of_true respects (not_killsStale (by simp))
  | kill pid =>
      split at taken
      · cases taken
        exact rejoinRule_kill_iff kernel.proc pid
      · cases taken

/-! ## A run that wakes a sleeper both ways -/

/-- The first process sleeps. -/
def asleep : Kernel 2 1 :=
  (exec forked onlyCpu (.sleep (.other 0))).get (by decide)

/-- The second process runs. -/
def childRuns : Kernel 2 1 :=
  (exec asleep onlyCpu .schedule).get (by decide)

/-- The second process has used a quantum. -/
def childCharged : Kernel 2 1 :=
  (exec childRuns onlyCpu .userTick).get (by decide)

/-- The second process runs again. -/
def childRunsAgain : Kernel 2 1 :=
  (exec childCharged onlyCpu .schedule).get (by decide)

theorem reachable_childRuns : (sparingSystem 2).Reachable childRuns := by
  have sleeps : (sparingSystem 2).Reachable asleep :=
    reachable_exec reachable_forked 0 (.sleep (.other 0)) (by decide)
      (by rintro _ ⟨⟩)
  exact reachable_exec sleeps 0 .schedule (by decide) (by rintro _ ⟨⟩)

theorem reachable_childRunsAgain :
    (kernelSystem 2 1).Reachable childRunsAgain := by
  have charged : (sparingSystem 2).Reachable childCharged :=
    reachable_exec reachable_childRuns 0 .userTick (by decide)
      (by rintro _ ⟨⟩)
  exact (reachable_exec charged 0 .schedule (by decide)
    (by rintro _ ⟨⟩)).of_guarded

/-- `wakeup` wakes the sleeper with the minimum of the active processes. -/
theorem rejoinRule_wakeup_sleeper :
    RejoinRule childRunsAgain.proc
      ((exec childRunsAgain 0 (.wakeup (.other 0))).get (by decide)).proc :=
  (rejoinRule_iff reachable_childRunsAgain 0 (.wakeup (.other 0))
    (Option.some_get _).symm).mpr (not_killsStale (by simp))

/--
The second process kills the sleeping first one, which becomes RUNNABLE with
accumulator 0 while the only other active process has 5.
-/
theorem kill_keeps_stale_accumulator :
    (kernelSystem 2 1).Reachable childRunsAgain ∧
      ¬ RejoinRule childRunsAgain.proc
        ((exec childRunsAgain 0 (.kill 1)).get (by decide)).proc := by
  refine ⟨reachable_childRunsAgain, ?_⟩
  intro rule
  have low := rule 0 (by decide) (by decide) 5
    ⟨⟨1, by decide, by decide, by decide⟩, by decide⟩
  exact absurd low (by decide)

end OSCourse.Scheduling
