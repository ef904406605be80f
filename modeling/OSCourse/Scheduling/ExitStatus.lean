import Mathlib.Data.List.Perm.Basic
import OSCourse.Scheduling.Waiting

/-!
# Exit statuses

What processes leave with `exit` and what `wait` returns, over whole runs: the
ids and statuses left are exactly those that `wait` has returned, those that
`wait(0)` has discarded and those of the zombies, each as often, and no id is
left twice.
-/

namespace OSCourse.Scheduling

open OSCourse.Library.TransitionSystem

variable {n cpus : Nat} {kernel next : Kernel n cpus}

/-- The id and the status that a process leaves in the step, if one exits. -/
def leftBy (step : KernelStep n cpus) : Option (Int × Int) :=
  match step.before.cpu step.label.1 with
  | none => none
  | some p =>
      match step.label.2 with
      | .exit status => some ((step.before.proc p).pid, status)
      | .userTick =>
          if (step.before.proc p).killed then
            some ((step.before.proc p).pid, -1)
          else
            none
      | _ => none

/-- The id and the status of the child that a `wait(addr)` with such an `addr`
frees in the step. -/
def reapedBy (wanted : BitVec 64 → Bool) (step : KernelStep n cpus) :
    Option (Int × Int) :=
  match step.before.cpu step.label.1 with
  | none => none
  | some p =>
      match step.label.2 with
      | .wait addr copyout =>
          match waitScan addr copyout p step.before.proc with
          | .reaped child =>
              if wanted addr then
                some ((step.before.proc child).pid,
                  (step.before.proc child).xstate)
              else
                none
          | _ => none
      | _ => none

/-- The id that `wait` returns in the step, with the status it copies out. -/
def returnedBy (step : KernelStep n cpus) : Option (Int × Int) :=
  reapedBy (fun addr => addr ≠ 0) step

/-- The id that `wait(0)` returns in the step, with the status that is lost. -/
def discardedBy (step : KernelStep n cpus) : Option (Int × Int) :=
  reapedBy (fun addr => addr = 0) step

/-- The id and the status of a zombie. -/
def Proc.left (p : Proc n) : Option (Int × Int) :=
  if p.state = .zombie then some (p.pid, p.xstate) else none

/-- The ids and the statuses of the zombies. -/
def zombies (table : Table n) : List (Int × Int) :=
  (List.finRange n).filterMap fun p => (table p).left

/-! ## The zombies before and after a step -/

/-- Two tables with the same zombies. -/
theorem zombies_congr {before after : Table n}
    (same : ∀ p, (after p).left = (before p).left) :
    zombies after = zombies before := by
  unfold zombies
  congr 1
  funext p
  exact same p

/-- A process becomes a zombie. -/
theorem zombies_cons {before after : Table n} {p : Fin n} {left : Int × Int}
    (fresh : (before p).left = none) (here : (after p).left = some left)
    (others : ∀ q, q ≠ p → (after q).left = (before q).left) :
    (zombies after).Perm (left :: zombies before) := by
  have order := List.perm_cons_erase (List.mem_finRange p)
  have rest : ((List.finRange n).erase p).filterMap
      (fun q => (after q).left) =
        ((List.finRange n).erase p).filterMap fun q => (before q).left := by
    refine List.filterMap_congr fun q member => others q ?_
    rintro rfl
    exact (List.nodup_finRange n).not_mem_erase member
  calc List.Perm (zombies after) ((p :: (List.finRange n).erase p).filterMap
        fun q => (after q).left) := order.filterMap _
    _ = left :: (p :: (List.finRange n).erase p).filterMap
          fun q => (before q).left := by
        simp only [List.filterMap_cons, here, fresh, rest]
    List.Perm _ (left :: zombies before) := ((order.filterMap _).symm).cons left

/-- One entry changes, and the change neither makes nor frees a zombie. -/
theorem left_update {table : Table n} {p : Fin n} {entry : Proc n}
    (same : entry.left = (table p).left) (q : Fin n) :
    (Function.update table p entry q).left = (table q).left := by
  by_cases here : q = p
  · subst here
    rw [Function.update_self, same]
  · rw [Function.update_of_ne here]

theorem Stirred.left {before after : Proc n} (stirred : Stirred before after) :
    after.left = before.left := by
  have zombie : after.state = .zombie ↔ before.state = .zombie :=
    stirred.state_eq_iff (by decide) (by decide)
  simp only [Proc.left, zombie, stirred.pid, stirred.xstate]

theorem left_of_state {p : Proc n} (alive : p.state ≠ .zombie) :
    p.left = none :=
  if_neg alive

/-- The steps that have nothing to do with zombies. -/
theorem left_of_taken (sound : Sound kernel) {c : Fin cpus} {op : Op n}
    (taken : Taken kernel c op next) (stays : ∀ status, op ≠ .exit status)
    (noTick : op ≠ .userTick) (noWait : ∀ addr copyout, op ≠ .wait addr copyout)
    (q : Fin n) : (next.proc q).left = (kernel.proc q).left := by
  have running : ∀ p, kernel.cpu c = some p →
      (kernel.proc p).left = none := by
    intro p busy
    exact left_of_state (by simp [sound.running c p busy])
  cases taken with
  | stay => rfl
  | dispatch p idle chosen =>
      have runnable := scanSoFar_scan kernel.proc
      rw [chosen] at runnable
      refine left_update ?_ q
      rw [left_of_state (by simp), left_of_state (by simp [runnable.1])]
  | wakeup chan => exact (stirred_wakeup _ _ kernel.proc q).left
  | preempt op p accumulator busy tick =>
      refine left_update ?_ q
      rw [running p busy, left_of_state (by simp)]
  | fork memory p np busy unused =>
      refine left_update ?_ q
      rw [left_of_state (by simp [forkedProc]),
        left_of_state (by simp [unused])]
  | forkFails memory p np busy unused =>
      refine left_update ?_ q
      rw [left_of_state (by simp [freeproc]), left_of_state (by simp [unused])]
  | sleep chan p busy =>
      refine left_update ?_ q
      rw [running p busy, left_of_state (by simp)]
  | block addr copyout => exact absurd rfl (noWait addr copyout)
  | exit op status p busy other exits =>
      rcases exits with exits | exits
      · exact absurd exits (stays status)
      · exact absurd exits noTick
  | reap addr copyout => exact absurd rfl (noWait addr copyout)
  | kill pid p victim busy found =>
      refine left_update ?_ q
      by_cases asleep : (kernel.proc victim).state = .sleeping
      · rw [left_of_state (by simp [asleep]),
          left_of_state (by simp [asleep])]
      · simp [Proc.left, asleep]
  | setPsPriority priority p busy =>
      refine left_update ?_ q
      rfl

/-- The process `p` exits on processor `c`. -/
theorem zombies_exitOp (sound : Sound kernel) {c : Fin cpus} {p : Fin n}
    {status : Int} (busy : kernel.cpu c = some p)
    (ran : exitOp kernel c p status = some next) :
    (zombies next.proc).Perm
      (((kernel.proc p).pid, status) :: zombies kernel.proc) := by
  unfold exitOp at ran
  split at ran
  · cases ran
  · cases ran
    have entry := exit_entry status kernel.initproc p kernel.proc
    refine zombies_cons (p := p) ?_ ?_ ?_
    · exact left_of_state (by simp [sound.running c p busy])
    · have leaves := (entry p).leaves rfl
      simp [Kernel.switched, Proc.left, leaves.1, leaves.2, (entry p).pid]
    · intro q other
      exact ((entry q).others other).left

/-- The zombies before a step and after it. -/
theorem zombies_step (step : KernelStep n cpus) (sound : Sound step.before)
    (ran : exec step.before step.label.1 step.label.2 = some step.after) :
    ((leftBy step).toList ++ zombies step.before.proc).Perm
      ((returnedBy step).toList ++
        ((discardedBy step).toList ++ zombies step.after.proc)) := by
  rcases step with ⟨kernel, ⟨c, op⟩, next⟩
  simp only at sound ran ⊢
  have taken := taken_of_exec ran
  cases busy : kernel.cpu c with
  | none =>
      have same : zombies next.proc = zombies kernel.proc := by
        refine zombies_congr fun q => ?_
        refine left_of_taken sound taken ?_ ?_ ?_ q
        · rintro status rfl
          simp [exec, busy] at ran
        · rintro rfl
          simp [exec, busy] at ran
        · rintro addr copyout rfl
          simp [exec, busy] at ran
      simp [leftBy, returnedBy, discardedBy, reapedBy, busy, same]
  | some p =>
      have running : (kernel.proc p).left = none :=
        left_of_state (by simp [sound.running c p busy])
      have plain : (∀ status, op ≠ .exit status) → op ≠ .userTick →
          (∀ addr copyout, op ≠ .wait addr copyout) →
            zombies next.proc = zombies kernel.proc :=
        fun stays noTick noWait =>
          zombies_congr (left_of_taken sound taken stays noTick noWait)
      simp only [exec, busy] at ran
      cases op with
      | exit status =>
          simpa [leftBy, returnedBy, discardedBy, reapedBy, busy] using
            (zombies_exitOp sound busy ran).symm
      | userTick =>
          rw [runningOp] at ran
          split at ran
          · next killed =>
            simpa [leftBy, returnedBy, discardedBy, reapedBy, busy,
              killed] using (zombies_exitOp sound busy ran).symm
          · next spared =>
            cases ran
            have same : zombies (yield p (charge p kernel.proc)) =
                zombies kernel.proc := by
              refine zombies_congr fun q => ?_
              unfold yield charge
              split
              · refine (left_update ?_ q).trans (left_update ?_ q)
                · simp [Proc.left, sound.running c p busy]
                · simp [Proc.left, sound.running c p busy]
              · refine left_update ?_ q
                rw [running, left_of_state (by simp)]
            simp [leftBy, returnedBy, discardedBy, reapedBy, busy, spared,
              Kernel.switched, same]
      | wait addr copyout =>
          rw [runningOp] at ran
          split at ran
          · next child reaped =>
            cases ran
            have zombie := waitScan_reaped reaped
            have freed : (zombies kernel.proc).Perm
                (((kernel.proc child).pid, (kernel.proc child).xstate) ::
                  zombies (Function.update kernel.proc child
                    (freeproc (kernel.proc child)))) := by
              refine zombies_cons (p := child) ?_ ?_ ?_
              · exact left_of_state (by simp [freeproc])
              · simp [Proc.left, zombie]
              · intro q other
                rw [Function.update_of_ne other]
            rcases Decidable.em (addr = 0#64) with rfl | wanted
            · simpa [leftBy, returnedBy, discardedBy, reapedBy, busy, reaped]
                using freed
            · simpa [leftBy, returnedBy, discardedBy, reapedBy, busy, reaped,
                wanted] using freed
          · next failed =>
            cases ran
            simp [leftBy, returnedBy, discardedBy, reapedBy, busy, failed]
          · next none =>
            cases ran
            simp [leftBy, returnedBy, discardedBy, reapedBy, busy, none]
          · next blocked =>
            cases ran
            have same : zombies (Scheduling.sleep (.proc p) p kernel.proc) =
                zombies kernel.proc := by
              refine zombies_congr (left_update ?_)
              rw [running, left_of_state (by simp)]
            simp [leftBy, returnedBy, discardedBy, reapedBy, busy, blocked,
              Kernel.switched, same]
      | schedule =>
          simp [leftBy, returnedBy, discardedBy, reapedBy, busy, plain]
      | kernelTick =>
          simp [leftBy, returnedBy, discardedBy, reapedBy, busy, plain]
      | fork memory =>
          simp [leftBy, returnedBy, discardedBy, reapedBy, busy, plain]
      | sleep chan =>
          simp [leftBy, returnedBy, discardedBy, reapedBy, busy, plain]
      | wakeup chan =>
          simp [leftBy, returnedBy, discardedBy, reapedBy, busy, plain]
      | kill pid =>
          simp [leftBy, returnedBy, discardedBy, reapedBy, busy, plain]
      | setPsPriority priority =>
          simp [leftBy, returnedBy, discardedBy, reapedBy, busy, plain]

/-! ## Ids that are gone -/

/-- No process can have the id any more, unless it is a zombie. -/
def Gone (kernel : Kernel n cpus) (pid : Int) : Prop :=
  pid < kernel.nextpid ∧ ∀ p, (kernel.proc p).living →
    (kernel.proc p).pid ≠ pid

/-- A process that lives after a step lived before it under the same id, or is
born in it with the next id. -/
theorem living_of_taken (sound : Sound kernel) {c : Fin cpus} {op : Op n}
    (taken : Taken kernel c op next) :
    kernel.nextpid ≤ next.nextpid ∧ ∀ q, (next.proc q).living →
      (kernel.proc q).living ∧ (next.proc q).pid = (kernel.proc q).pid ∨
        (next.proc q).pid = kernel.nextpid := by
  have stirred : ∀ {before after : Proc n}, Stirred before after →
      after.living → before.living ∧ after.pid = before.pid := by
    intro before after stirred living
    refine ⟨⟨fun unused => living.1 ?_, fun zombie => living.2 ?_⟩,
      stirred.pid⟩
    · exact (stirred.state_eq_iff (by decide) (by decide)).mpr unused
    · exact (stirred.state_eq_iff (by decide) (by decide)).mpr zombie
  have updated : ∀ {p : Fin n} {entry : Proc n},
      (entry.living → (kernel.proc p).living ∧
        entry.pid = (kernel.proc p).pid ∨ entry.pid = kernel.nextpid) →
      ∀ q, (Function.update kernel.proc p entry q).living →
        (kernel.proc q).living ∧
          (Function.update kernel.proc p entry q).pid =
            (kernel.proc q).pid ∨
          (Function.update kernel.proc p entry q).pid = kernel.nextpid := by
    intro p entry here q living
    by_cases same : q = p
    · subst same
      rw [Function.update_self] at living ⊢
      exact here living
    · rw [Function.update_of_ne same] at living ⊢
      exact .inl ⟨living, rfl⟩
  have running : ∀ p, kernel.cpu c = some p → (kernel.proc p).living := by
    intro p busy
    simp [Proc.living, sound.running c p busy]
  cases taken with
  | stay => exact ⟨Int.le_refl _, fun q living => .inl ⟨living, rfl⟩⟩
  | dispatch p idle chosen =>
      have runnable := scanSoFar_scan kernel.proc
      rw [chosen] at runnable
      refine ⟨Int.le_refl _, updated fun _ => .inl ⟨?_, rfl⟩⟩
      simp [Proc.living, runnable.1]
  | wakeup chan =>
      exact ⟨Int.le_refl _, fun q living =>
        .inl (stirred (stirred_wakeup _ _ kernel.proc q) living)⟩
  | preempt op p accumulator busy tick =>
      exact ⟨Int.le_refl _, updated fun _ => .inl ⟨running p busy, rfl⟩⟩
  | fork memory p np busy unused =>
      refine ⟨?_, updated fun _ => .inr rfl⟩
      change kernel.nextpid ≤ kernel.nextpid + 1
      omega
  | forkFails memory p np busy unused =>
      refine ⟨?_, updated fun living => absurd rfl living.1⟩
      change kernel.nextpid ≤ kernel.nextpid + 1
      omega
  | sleep chan p busy =>
      exact ⟨Int.le_refl _, updated fun _ => .inl ⟨running p busy, rfl⟩⟩
  | block addr copyout p busy blocked =>
      exact ⟨Int.le_refl _, updated fun _ => .inl ⟨running p busy, rfl⟩⟩
  | exit op status p busy other exits =>
      refine ⟨Int.le_refl _, fun q living => .inl ?_⟩
      have entry := exit_entry status kernel.initproc p kernel.proc q
      by_cases same : q = p
      · exact absurd (entry.leaves same).1 living.2
      · exact stirred (entry.others same) living
  | reap addr copyout p child busy reaped =>
      exact ⟨Int.le_refl _, updated fun living => absurd rfl living.1⟩
  | kill pid p victim busy found =>
      refine ⟨Int.le_refl _, updated fun living => .inl ⟨?_, rfl⟩⟩
      simp only [Proc.living] at living ⊢
      split at living
      · next asleep => simp [asleep]
      · exact living
  | setPsPriority priority p busy =>
      exact ⟨Int.le_refl _, updated fun living => .inl ⟨living, rfl⟩⟩

theorem Gone.step {pid : Int} (gone : Gone kernel pid) (sound : Sound kernel)
    {c : Fin cpus} {op : Op n} (taken : Taken kernel c op next) :
    Gone next pid := by
  rcases living_of_taken sound taken with ⟨later, living⟩
  refine ⟨Int.lt_of_lt_of_le gone.1 later, fun p lives same => ?_⟩
  rcases living p lives with ⟨lived, kept⟩ | born
  · exact gone.2 p lived (kept.symm.trans same)
  · exact absurd gone.1 (by omega)

/-- A process that leaves a status runs, and its id is gone afterwards. -/
theorem gone_of_leftBy (step : KernelStep n cpus) (sound : Sound step.before)
    (pids : Pids step.before)
    (ran : exec step.before step.label.1 step.label.2 = some step.after)
    {left : Int × Int} (leaves : leftBy step = some left) :
    ¬ Gone step.before left.1 ∧ Gone step.after left.1 := by
  rcases step with ⟨kernel, ⟨c, op⟩, next⟩
  simp only at sound pids ran ⊢
  cases busy : kernel.cpu c with
  | none => simp [leftBy, busy] at leaves
  | some p =>
      have running := sound.running c p busy
      have lives : (kernel.proc p).living := by simp [Proc.living, running]
      -- the two ways to exit
      have exits : left.1 = (kernel.proc p).pid ∧
          (next.proc p).state = .zombie := by
        have zombie : ∀ status, exitOp kernel c p status = some next →
            (next.proc p).state = .zombie := by
          intro status ran
          unfold exitOp at ran
          split at ran
          · cases ran
          · cases ran
            exact ((exit_entry status kernel.initproc p kernel.proc p).leaves
              rfl).1
        simp only [exec, busy] at ran
        simp only [leftBy, busy] at leaves
        split at leaves
        · cases leaves
          exact ⟨rfl, zombie _ ran⟩
        · split at leaves
          · next killed =>
            cases leaves
            rw [runningOp, if_pos killed] at ran
            exact ⟨rfl, zombie _ ran⟩
          · cases leaves
        · cases leaves
      rcases living_of_taken sound (taken_of_exec ran) with ⟨later, living⟩
      have bound := (pids.used p lives.1).2
      refine ⟨fun gone => gone.2 p lives exits.1.symm, ?_, ?_⟩
      · rw [exits.1]
        exact Int.lt_of_lt_of_le bound later
      · intro q livesQ same
        rw [exits.1] at same
        rcases living q livesQ with ⟨lived, kept⟩ | born
        · have equal := pids.apart q p lived.1 lives.1 (kept.symm.trans same)
          exact livesQ.2 (equal ▸ exits.2)
        · omega

/-! ## Whole runs -/

/-- An id that is gone is not left again. -/
theorem Gone.not_left {first last : Kernel n cpus}
    {steps : List (KernelStep n cpus)}
    (stretch : (kernelSystem n cpus).Stretch first steps last)
    (reached : (kernelSystem n cpus).Reachable first) {pid : Int}
    (gone : Gone first pid) :
    pid ∉ (steps.filterMap leftBy).map Prod.fst := by
  induction stretch with
  | nil => simp
  | @cons kernel next last label rest taken _ induction =>
      have sound := sound_of_reachable reached
      have later := induction (reached.step taken)
        (gone.step sound (taken_of_exec taken))
      cases leaves : leftBy ⟨kernel, label, next⟩ with
      | none => rwa [List.filterMap_cons_none leaves]
      | some left =>
          rw [List.filterMap_cons_some leaves, List.map_cons,
            List.mem_cons, not_or]
          refine ⟨?_, later⟩
          rintro rfl
          exact (gone_of_leftBy ⟨kernel, label, next⟩ sound
            (pids_of_reachable reached) taken leaves).1 gone

theorem left_perm {first last : Kernel n cpus}
    {steps : List (KernelStep n cpus)}
    (stretch : (kernelSystem n cpus).Stretch first steps last)
    (reached : (kernelSystem n cpus).Reachable first) :
    (steps.filterMap leftBy ++ zombies first.proc).Perm
      (steps.filterMap returnedBy ++
        (steps.filterMap discardedBy ++ zombies last.proc)) := by
  induction stretch with
  | nil => exact .refl _
  | @cons kernel next last label rest taken _ induction =>
      have here := zombies_step ⟨kernel, label, next⟩
        (sound_of_reachable reached) taken
      have later := induction (reached.step taken)
      have split : ∀ f : KernelStep n cpus → Option (Int × Int),
          List.filterMap f (⟨kernel, label, next⟩ :: rest) =
            (f ⟨kernel, label, next⟩).toList ++ rest.filterMap f := by
        intro f
        cases result : f ⟨kernel, label, next⟩ with
        | none => simp [result]
        | some left => simp [result]
      rw [split, split, split]
      refine List.perm_iff_count.mpr fun left => ?_
      have countHere := here.count_eq left
      have countLater := later.count_eq left
      simp only [List.count_append] at countHere countLater ⊢
      omega

theorem left_nodup {first last : Kernel n cpus}
    {steps : List (KernelStep n cpus)}
    (stretch : (kernelSystem n cpus).Stretch first steps last)
    (reached : (kernelSystem n cpus).Reachable first) :
    ((steps.filterMap leftBy).map Prod.fst).Nodup := by
  induction stretch with
  | nil => exact List.nodup_nil
  | @cons kernel next last label rest taken following induction =>
      have later := induction (reached.step taken)
      cases leaves : leftBy ⟨kernel, label, next⟩ with
      | none => rwa [List.filterMap_cons_none leaves]
      | some left =>
          rw [List.filterMap_cons_some leaves, List.map_cons,
            List.nodup_cons]
          have gone := (gone_of_leftBy ⟨kernel, label, next⟩
            (sound_of_reachable reached) (pids_of_reachable reached) taken
            leaves).2
          exact ⟨gone.not_left following (reached.step taken), later⟩

/--
In every run from the start in which the ids do not run out, the ids and
statuses that processes leave with `exit` are, each as often, those that `wait`
has returned, those that `wait(0)` has discarded and those of the zombies, and
no id is left twice: no status is returned twice or returned for another
process, and none is lost but by `wait(0)`.
-/
theorem exit_exactly_once {first last : Kernel n cpus}
    {steps : List (KernelStep n cpus)}
    (started : userinit = some first)
    (stretch :
      ((kernelSystem n cpus).guarded Numbered).Stretch first steps last) :
    (steps.filterMap leftBy).Perm
        (steps.filterMap returnedBy ++
          (steps.filterMap discardedBy ++ zombies last.proc)) ∧
      ((steps.filterMap leftBy).map Prod.fst).Nodup := by
  have reached : (kernelSystem n cpus).Reachable first := .start started
  refine ⟨?_, left_nodup stretch.of_guarded reached⟩
  have none : zombies first.proc = [] := by
    rcases userinit_cases started with ⟨p, rfl⟩
    refine List.filterMap_eq_nil_iff.mpr fun q _ => left_of_state ?_
    by_cases same : q = p
    · simp [Kernel.allocated, same]
    · simp [Kernel.allocated, same, procinit]
  have balance := left_perm stretch.of_guarded reached
  rwa [none, List.append_nil] at balance

/-- The child runs while its parent waits. -/
def childWorks : Kernel 2 1 :=
  (exec waiting onlyCpu .schedule).get (by decide)

/-- The child has exited with status 7. -/
def childExited : Kernel 2 1 :=
  (exec childWorks onlyCpu (.exit 7)).get (by decide)

/-- The parent is back in `wait`. -/
def parentWoken : Kernel 2 1 :=
  (exec childExited onlyCpu .schedule).get (by decide)

/-- The parent has returned from `wait`. -/
def childReaped : Kernel 2 1 :=
  (exec parentWoken onlyCpu (.wait 1 true)).get (by decide)

/-- A run in which a process forks and waits, and its child exits. -/
def childHistory : List (KernelStep 2 1) :=
  [⟨booted, (onlyCpu, .schedule), dispatched⟩,
    ⟨dispatched, (onlyCpu, .fork ⟨true, true, true⟩), forked⟩,
    ⟨forked, (onlyCpu, .wait 1 true), waiting⟩,
    ⟨waiting, (onlyCpu, .schedule), childWorks⟩,
    ⟨childWorks, (onlyCpu, .exit 7), childExited⟩,
    ⟨childExited, (onlyCpu, .schedule), parentWoken⟩,
    ⟨parentWoken, (onlyCpu, .wait 1 true), childReaped⟩]

theorem stretch_childHistory :
    ((kernelSystem 2 1).guarded Numbered).Stretch booted childHistory
      childReaped :=
  .cons ⟨by decide, (Option.some_get _).symm⟩ (.cons
    ⟨by decide, (Option.some_get _).symm⟩ (.cons
      ⟨by decide, (Option.some_get _).symm⟩ (.cons
        ⟨by decide, (Option.some_get _).symm⟩ (.cons
          ⟨by decide, (Option.some_get _).symm⟩ (.cons
            ⟨by decide, (Option.some_get _).symm⟩ (.cons
              ⟨by decide, (Option.some_get _).symm⟩ .nil))))))

theorem exit_exactly_once_childHistory :
    childHistory.filterMap returnedBy = [(2, 7)] ∧
      (childHistory.filterMap leftBy).Perm
        (childHistory.filterMap returnedBy ++
          (childHistory.filterMap discardedBy ++ zombies childReaped.proc)) ∧
      ((childHistory.filterMap leftBy).map Prod.fst).Nodup :=
  ⟨by decide, exit_exactly_once (Option.some_get _).symm stretch_childHistory⟩

end OSCourse.Scheduling
