import OSCourse.Scheduling.Charging

/-!
# The life of a process

What one step of the kernel can do to the process table, told once for all that
follows: `wakeup`, `reparent` and `exit` entry by entry, and the operations as
the changes they make.  Then the process ids: in every run the ids of the
processes in use are positive, below `nextpid` and distinct, and a free entry
has the id 0.
-/

namespace OSCourse.Scheduling

open OSCourse.Library.TransitionSystem

variable {n cpus : Nat}

/-! ## Waking, entry by entry -/

/-- Turns of the loop of `wakeup` wake the processes they visit. -/
theorem wakeup_foldl_entry (chan : Option (Chan n)) (me : Option (Fin n))
    (entries : List (Fin n)) (table : Table n) (q : Fin n) :
    ∃ accumulator, entries.foldl (wakeupStep chan me) table q =
      { table q with
        accumulator := accumulator
        state :=
          if q ∈ entries ∧ Woken table chan me q then .runnable
          else (table q).state } := by
  induction entries generalizing table with
  | nil => exact ⟨(table q).accumulator, by simp⟩
  | cons p rest induction =>
      rcases induction (wakeupStep chan me table p) with ⟨accumulator, after⟩
      rw [List.foldl_cons, after]
      by_cases same : q = p
      · subst same
        by_cases woken : Woken table chan me q
        · have here : wakeupStep chan me table q q =
              { table q with
                accumulator := getMinAccumulator table q
                state := .runnable } := by
            simp [wakeupStep, woken.1, woken.2]
          have done : ¬ Woken (wakeupStep chan me table q) chan me q := by
            intro again
            simpa [here] using again.2.1
          exact ⟨accumulator, by simp [here, woken, done]⟩
        · have here : wakeupStep chan me table q q = table q := by
            unfold wakeupStep
            split
            · rfl
            · next other =>
              rw [if_neg fun asleep => woken ⟨other, asleep⟩]
          have still : ¬ Woken (wakeupStep chan me table q) chan me q := by
            simpa [Woken, here] using woken
          exact ⟨accumulator, by simp [here, woken, still]⟩
      · have here : wakeupStep chan me table p q = table q := by
          unfold wakeupStep
          split
          · rfl
          · split
            · rw [Function.update_of_ne same]
            · rfl
        exact ⟨accumulator, by simp [Woken, here, same]⟩

/-- What `wakeup` does to one entry. -/
theorem wakeup_entry (chan : Option (Chan n)) (me : Option (Fin n))
    (table : Table n) (q : Fin n) :
    ∃ accumulator, wakeup chan me table q =
      { table q with
        accumulator := accumulator
        state :=
          if Woken table chan me q then .runnable else (table q).state } := by
  simpa [wakeup] using wakeup_foldl_entry chan me (List.finRange n) table q

/-! ## Leaving, entry by entry -/

/-- The entry may have been woken, and keeps the rest but for its accumulator
and its parent. -/
structure Stirred (before after : Proc n) : Prop where
  pid : after.pid = before.pid
  killed : after.killed = before.killed
  xstate : after.xstate = before.xstate
  chan : after.chan = before.chan
  state : after.state = before.state ∨
    before.state = .sleeping ∧ after.state = .runnable

theorem Stirred.refl (p : Proc n) : Stirred p p :=
  ⟨rfl, rfl, rfl, rfl, .inl rfl⟩

theorem Stirred.trans {first second third : Proc n}
    (left : Stirred first second) (right : Stirred second third) :
    Stirred first third := by
  refine ⟨right.pid.trans left.pid, right.killed.trans left.killed,
    right.xstate.trans left.xstate, right.chan.trans left.chan, ?_⟩
  rcases right.state with same | ⟨asleep, woken⟩
  · rw [same]
    exact left.state
  · rcases left.state with same | ⟨_, awake⟩
    · exact .inr ⟨same ▸ asleep, woken⟩
    · rw [awake] at asleep
      cases asleep

/-- A process in use stays in use, and a free entry stays free. -/
theorem Stirred.state_eq_iff {before after : Proc n}
    (stirred : Stirred before after) {state : ProcState}
    (awake : state ≠ .sleeping) (waiting : state ≠ .runnable) :
    after.state = state ↔ before.state = state := by
  rcases stirred.state with same | ⟨asleep, woken⟩
  · rw [same]
  · rw [asleep, woken]
    exact iff_of_false (Ne.symm waiting) (Ne.symm awake)

theorem stirred_wakeup (chan : Option (Chan n)) (me : Option (Fin n))
    (table : Table n) (q : Fin n) :
    Stirred (table q) (wakeup chan me table q) := by
  rcases wakeup_entry chan me table q with ⟨accumulator, after⟩
  rw [after]
  refine ⟨rfl, rfl, rfl, rfl, ?_⟩
  by_cases woken : Woken table chan me q
  · exact .inr ⟨woken.2.1, by simp [woken]⟩
  · exact .inl (by simp [woken])

theorem parent_wakeup (chan : Option (Chan n)) (me : Option (Fin n))
    (table : Table n) (q : Fin n) :
    (wakeup chan me table q).parent = (table q).parent := by
  rcases wakeup_entry chan me table q with ⟨accumulator, after⟩
  rw [after]

/-- Nobody but the caller sleeps on the channel after `wakeup`. -/
theorem not_woken_wakeup (chan : Option (Chan n)) (me : Option (Fin n))
    (table : Table n) (q : Fin n) :
    ¬ Woken (wakeup chan me table) chan me q := by
  rcases wakeup_entry chan me table q with ⟨accumulator, after⟩
  by_cases woken : Woken table chan me q
  · rw [if_pos woken] at after
    simp [Woken, after]
  · rw [if_neg woken] at after
    simpa [Woken, after] using woken

/-- A turn of the loop of `reparent`. -/
theorem reparentStep_entry (initproc : Option (Fin n)) (p pp : Fin n)
    (table : Table n) (q : Fin n) :
    Stirred (table q) (reparentStep initproc p table pp q) ∧
      (reparentStep initproc p table pp q).parent =
        if q = pp ∧ (table q).parent = some p then initproc
        else (table q).parent := by
  unfold reparentStep
  split
  · next child =>
    have moved : ∀ r, Stirred (table r)
        (Function.update table pp { table pp with parent := initproc } r) := by
      intro r
      by_cases same : r = pp
      · subst same
        rw [Function.update_self]
        exact ⟨rfl, rfl, rfl, rfl, .inl rfl⟩
      · rw [Function.update_of_ne same]
        exact .refl _
    refine ⟨(moved q).trans (stirred_wakeup _ _ _ q), ?_⟩
    rw [parent_wakeup]
    by_cases same : q = pp
    · subst same
      simp [child]
    · simp [same]
  · next other =>
    refine ⟨.refl _, ?_⟩
    rw [if_neg]
    rintro ⟨rfl, child⟩
    exact other child

theorem reparent_foldl_entry (initproc : Option (Fin n)) (p : Fin n)
    (entries : List (Fin n)) (table : Table n) (q : Fin n) :
    Stirred (table q) (entries.foldl (reparentStep initproc p) table q) ∧
      (entries.foldl (reparentStep initproc p) table q).parent =
        if q ∈ entries ∧ (table q).parent = some p then initproc
        else (table q).parent := by
  induction entries generalizing table with
  | nil => exact ⟨.refl _, by simp⟩
  | cons pp rest induction =>
      rcases reparentStep_entry initproc p pp table q with ⟨stirred, parent⟩
      rcases induction (reparentStep initproc p table pp) with
        ⟨stirredRest, parentRest⟩
      refine ⟨stirred.trans stirredRest, ?_⟩
      rw [List.foldl_cons, parentRest, parent]
      by_cases child : (table q).parent = some p
      · by_cases same : q = pp
        · simp [← same, child]
        · simp [same]
      · simp [child]

/-- Nobody falls asleep. -/
theorem Stirred.not_woken {before after : Table n} {q : Fin n}
    {chan : Option (Chan n)} {me : Option (Fin n)}
    (stirred : Stirred (before q) (after q))
    (awake : ¬ Woken before chan me q) : ¬ Woken after chan me q := by
  rintro ⟨other, asleep, waits⟩
  refine awake ⟨other, ?_, stirred.chan ▸ waits⟩
  rcases stirred.state with same | ⟨_, woken⟩
  · exact same ▸ asleep
  · rw [asleep] at woken
    cases woken

/-- Where a child is handed over, the first process is woken. -/
theorem reparent_foldl_wakes (initproc : Option (Fin n)) (p : Fin n)
    (entries : List (Fin n)) (table : Table n) {child : Fin n}
    (visited : child ∈ entries) (parent : (table child).parent = some p)
    (q : Fin n) :
    ¬ Woken (entries.foldl (reparentStep initproc p) table)
      (initproc.map .proc) (some p) q := by
  induction entries generalizing table with
  | nil => cases visited
  | cons pp rest induction =>
      rw [List.foldl_cons]
      by_cases same : child = pp
      · subst same
        refine (reparent_foldl_entry initproc p rest _ q).1.not_woken ?_
        rw [reparentStep, if_pos parent]
        exact not_woken_wakeup _ _ _ q
      · refine induction _ (List.mem_of_ne_of_mem same visited) ?_
        rw [(reparentStep_entry initproc p pp table child).2]
        simp [same, parent]

/-- What `exit` does to an entry. -/
structure ExitEntry (status : Int) (initproc : Option (Fin n)) (p q : Fin n)
    (before after : Proc n) : Prop where
  parent : after.parent =
    if before.parent = some p then initproc else before.parent
  pid : after.pid = before.pid
  killed : after.killed = before.killed
  chan : after.chan = before.chan
  leaves : q = p → after.state = .zombie ∧ after.xstate = status
  others : q ≠ p → Stirred before after

/-- The processes that `exit` may have to wake. -/
theorem exit_entry (status : Int) (initproc : Option (Fin n)) (p : Fin n)
    (table : Table n) (q : Fin n) :
    ExitEntry status initproc p q (table q)
      (exit status initproc p table q) := by
  rcases reparent_foldl_entry initproc p (List.finRange n) table q with
    ⟨stirred, parent⟩
  have woken := stirred_wakeup
    ((reparent initproc p table p).parent.map .proc) (some p)
    (reparent initproc p table) q
  have both : Stirred (table q)
      (wakeup ((reparent initproc p table p).parent.map .proc) (some p)
        (reparent initproc p table) q) := stirred.trans woken
  have parents := parent_wakeup
    ((reparent initproc p table p).parent.map .proc) (some p)
    (reparent initproc p table) q
  have handed : (reparent initproc p table q).parent =
      if (table q).parent = some p then initproc else (table q).parent := by
    simpa [reparent] using parent
  unfold Scheduling.exit
  by_cases same : q = p
  · subst same
    simp only [Function.update_self]
    exact ⟨parents.trans handed, both.pid, both.killed, both.chan,
      fun _ => ⟨rfl, rfl⟩, fun other => absurd rfl other⟩
  · simp only [Function.update_of_ne same]
    exact ⟨parents.trans handed, both.pid, both.killed, both.chan,
      fun here => absurd here same, fun _ => both⟩

/-- A process does not sleep in `wait` when one of its children exits or is
handed over to it. -/
theorem exit_wakes (status : Int) (initproc : Option (Fin n)) (p : Fin n)
    (table : Table n) {child parent : Fin n} (other : parent ≠ p)
    (after : (exit status initproc p table child).parent = some parent)
    (news : child = p ∨ (table child).parent = some p) :
    ¬ Woken (exit status initproc p table) (some (.proc parent)) (some p)
      parent := by
  have same : exit status initproc p table parent =
      wakeup ((reparent initproc p table p).parent.map .proc) (some p)
        (reparent initproc p table) parent := by
    rw [Scheduling.exit, Function.update_of_ne other]
  have kept : Stirred
      (wakeup ((reparent initproc p table p).parent.map .proc) (some p)
        (reparent initproc p table) parent)
      (exit status initproc p table parent) := by
    rw [same]
    exact .refl _
  apply kept.not_woken
  rw [(exit_entry status initproc p table child).parent] at after
  rcases news with rfl | handed
  · have target : (reparent initproc child table child).parent =
        some parent := by
      have entry := (reparent_foldl_entry initproc child (List.finRange n)
        table child).2
      simpa [reparent, after] using entry
    rw [target]
    exact not_woken_wakeup _ _ _ parent
  · rw [if_pos handed] at after
    refine (stirred_wakeup _ _ _ parent).not_woken ?_
    have woken := reparent_foldl_wakes initproc p (List.finRange n) table
      (List.mem_finRange child) handed parent
    rw [after] at woken
    rw [after]
    exact woken

/-! ## The steps -/

/-- What a step of the processor `c` can be. -/
inductive Taken (kernel : Kernel n cpus) (c : Fin cpus) :
    Op n → Kernel n cpus → Prop where
  | stay (op : Op n) : Taken kernel c op kernel
  | dispatch (p : Fin n) (idle : kernel.cpu c = none)
      (chosen : scan kernel.proc = some p) :
      Taken kernel c .schedule
        { kernel with
          proc := dispatch p kernel.proc
          cpu := Function.update kernel.cpu c (some p) }
  | wakeup (chan : Chan n) :
      Taken kernel c (.wakeup chan)
        { kernel with
          proc := wakeup (some chan) (kernel.cpu c) kernel.proc }
  | preempt (op : Op n) (p : Fin n) (accumulator : Int)
      (busy : kernel.cpu c = some p) (tick : op.isTick = true) :
      Taken kernel c op
        (kernel.switched c
          (Function.update kernel.proc p
            { kernel.proc p with
              accumulator := accumulator
              state := .runnable }))
  | fork (memory : Memory) (p np : Fin n) (busy : kernel.cpu c = some p)
      (unused : (kernel.proc np).state = .unused) :
      Taken kernel c (.fork memory)
        (kernel.allocated np (forkedProc kernel p np))
  | forkFails (memory : Memory) (p np : Fin n) (busy : kernel.cpu c = some p)
      (unused : (kernel.proc np).state = .unused) :
      Taken kernel c (.fork memory)
        (kernel.allocated np (freeproc (freshProc kernel np)))
  | sleep (chan : Chan n) (p : Fin n) (busy : kernel.cpu c = some p) :
      Taken kernel c (.sleep chan)
        (kernel.switched c (sleep chan p kernel.proc))
  | block (addr : BitVec 64) (copyout : Bool) (p : Fin n)
      (busy : kernel.cpu c = some p)
      (blocked : waitScan addr copyout p kernel.proc = .blocked) :
      Taken kernel c (.wait addr copyout)
        (kernel.switched c (sleep (.proc p) p kernel.proc))
  | exit (op : Op n) (status : Int) (p : Fin n)
      (busy : kernel.cpu c = some p) (other : kernel.initproc ≠ some p)
      (exits : op = .exit status ∨ op = .userTick) :
      Taken kernel c op
        (kernel.switched c (exit status kernel.initproc p kernel.proc))
  | reap (addr : BitVec 64) (copyout : Bool) (p child : Fin n)
      (busy : kernel.cpu c = some p)
      (reaped : waitScan addr copyout p kernel.proc = .reaped child) :
      Taken kernel c (.wait addr copyout)
        { kernel with
          proc :=
            Function.update kernel.proc child
              (freeproc (kernel.proc child)) }
  | kill (pid : Int) (p victim : Fin n) (busy : kernel.cpu c = some p)
      (found : (kernel.proc victim).pid = pid) :
      Taken kernel c (.kill pid)
        { kernel with
          proc :=
            Function.update kernel.proc victim
              { kernel.proc victim with
                killed := true
                state :=
                  if (kernel.proc victim).state = .sleeping then .runnable
                  else (kernel.proc victim).state } }
  | setPsPriority (priority : Int) (p : Fin n)
      (busy : kernel.cpu c = some p) :
      Taken kernel c (.setPsPriority priority)
        { kernel with
          proc :=
            Function.update kernel.proc p
              { kernel.proc p with psPriority := priority } }

theorem taken_of_exitOp {kernel next : Kernel n cpus} {c : Fin cpus}
    {p : Fin n} {status : Int} {op : Op n} (busy : kernel.cpu c = some p)
    (exits : op = .exit status ∨ op = .userTick)
    (ran : exitOp kernel c p status = some next) :
    Taken kernel c op next := by
  unfold exitOp at ran
  split at ran
  · cases ran
  · next other =>
    cases ran
    exact .exit op status p busy other exits

theorem taken_of_runningOp {kernel next : Kernel n cpus} {c : Fin cpus}
    {p : Fin n} {op : Op n} (busy : kernel.cpu c = some p)
    (ran : runningOp kernel c p op = some next) :
    Taken kernel c op next := by
  cases op with
  | schedule => cases ran
  | userTick =>
      rw [runningOp] at ran
      split at ran
      · refine taken_of_exitOp busy (.inr rfl) ran
      · cases ran
        have charged : ∃ accumulator,
            yield p (charge p kernel.proc) =
              Function.update kernel.proc p
                { kernel.proc p with
                  accumulator := accumulator
                  state := .runnable } := by
          unfold charge
          split
          · exact ⟨_, by rw [yield, Function.update_self,
              Function.update_idem]⟩
          · exact ⟨_, rfl⟩
        rcases charged with ⟨accumulator, charged⟩
        rw [charged]
        exact .preempt .userTick p accumulator busy rfl
  | kernelTick =>
      rw [runningOp] at ran
      split at ran
      · cases ran
        exact .preempt .kernelTick p _ busy rfl
      · cases ran
        exact .stay _
  | fork memory =>
      cases ran
      rcases fork_cases memory p kernel with
        same | ⟨np, unused, freed | forked⟩
      · rw [same]
        exact .stay _
      · rw [freed]
        exact .forkFails memory p np busy unused
      · rw [forked]
        exact .fork memory p np busy unused
  | sleep chan =>
      cases ran
      exact .sleep chan p busy
  | wakeup chan =>
      cases ran
      rw [← busy]
      exact .wakeup chan
  | exit status => exact taken_of_exitOp busy (.inl rfl) ran
  | wait addr copyout =>
      rw [runningOp] at ran
      split at ran
      · next child reaped =>
        cases ran
        exact .reap addr copyout p child busy reaped
      · cases ran
        exact .stay _
      · cases ran
        exact .stay _
      · next blocked =>
        cases ran
        exact .block addr copyout p busy blocked
  | kill pid =>
      cases ran
      unfold Scheduling.kill
      split
      · exact .stay _
      · next victim found =>
        exact .kill pid p victim busy (by simpa using List.find?_some found)
  | setPsPriority priority =>
      cases ran
      unfold Scheduling.setPsPriority
      split
      · exact .stay _
      · exact .setPsPriority priority p busy

theorem taken_of_exec {kernel next : Kernel n cpus} {c : Fin cpus}
    {op : Op n} (ran : exec kernel c op = some next) :
    Taken kernel c op next := by
  unfold exec at ran
  split at ran
  · next p busy => exact taken_of_runningOp busy ran
  · next idle =>
    split at ran
    · split at ran
      · cases ran
        exact .stay _
      · next p chosen =>
        cases ran
        exact .dispatch p idle chosen
    · next chan =>
      cases ran
      rw [← idle]
      exact .wakeup chan
    · cases ran

/-! ## Process ids -/

/-- Free entries have the id 0, and the ids of the others are distinct. -/
structure Pids (kernel : Kernel n cpus) : Prop where
  next : 1 ≤ kernel.nextpid
  free : ∀ p, (kernel.proc p).state = .unused → (kernel.proc p).pid = 0
  used : ∀ p, (kernel.proc p).state ≠ .unused →
    1 ≤ (kernel.proc p).pid ∧ (kernel.proc p).pid < kernel.nextpid
  apart : ∀ p q, (kernel.proc p).state ≠ .unused →
    (kernel.proc q).state ≠ .unused →
      (kernel.proc p).pid = (kernel.proc q).pid → p = q

namespace Pids

variable {kernel next : Kernel n cpus}

/-- No process is created or freed. -/
theorem keep (pids : Pids kernel) (same : next.nextpid = kernel.nextpid)
    (entry : ∀ p, (next.proc p).pid = (kernel.proc p).pid ∧
      ((next.proc p).state = .unused ↔ (kernel.proc p).state = .unused)) :
    Pids next := by
  constructor
  case next => exact same ▸ pids.next
  case free =>
    intro p unused
    rw [(entry p).1]
    exact pids.free p ((entry p).2.mp unused)
  case used =>
    intro p used
    rw [(entry p).1, same]
    exact pids.used p fun unused => used ((entry p).2.mpr unused)
  case apart =>
    intro p q usedP usedQ equal
    rw [(entry p).1, (entry q).1] at equal
    exact pids.apart p q (fun unused => usedP ((entry p).2.mpr unused))
      (fun unused => usedQ ((entry q).2.mpr unused)) equal

/-- One entry changes, and stays in use with its id. -/
theorem update (pids : Pids kernel) {p : Fin n} {entry : Proc n}
    {cpu : Fin cpus → Option (Fin n)}
    (pid : entry.pid = (kernel.proc p).pid)
    (state : entry.state = .unused ↔ (kernel.proc p).state = .unused) :
    Pids
      { kernel with
        proc := Function.update kernel.proc p entry
        cpu := cpu } := by
  refine pids.keep rfl ?_
  intro q
  by_cases same : q = p
  · subst same
    simpa [pid] using state
  · simp [Function.update_of_ne same]

/-- One entry is freed. -/
theorem freed (pids : Pids kernel) {p : Fin n} {entry : Proc n}
    (pid : entry.pid = 0) (unused : entry.state = .unused)
    (proc : next.proc = Function.update kernel.proc p entry)
    (later : kernel.nextpid ≤ next.nextpid) : Pids next := by
  have others : ∀ q, (next.proc q).state ≠ .unused →
      next.proc q = kernel.proc q := by
    intro q used
    by_cases same : q = p
    · subst same
      rw [proc, Function.update_self] at used
      exact absurd unused used
    · rw [proc, Function.update_of_ne same]
  constructor
  case next => exact Int.le_trans pids.next later
  case free =>
    intro q unused
    by_cases same : q = p
    · subst same
      rw [proc, Function.update_self, pid]
    · rw [proc, Function.update_of_ne same] at unused ⊢
      exact pids.free q unused
  case used =>
    intro q used
    have same := others q used
    rw [same] at used ⊢
    have bounds := pids.used q used
    exact ⟨bounds.1, Int.lt_of_lt_of_le bounds.2 later⟩
  case apart =>
    intro q r usedQ usedR equal
    have sameQ := others q usedQ
    have sameR := others r usedR
    rw [sameQ, sameR] at equal
    exact pids.apart q r (sameQ ▸ usedQ) (sameR ▸ usedR) equal

/-- A process is born with the next id. -/
theorem born (pids : Pids kernel) {p : Fin n} {entry : Proc n}
    (pid : entry.pid = kernel.nextpid) (used : entry.state ≠ .unused) :
    Pids (kernel.allocated p entry) := by
  have here : (kernel.allocated p entry).proc p = entry := by
    simp [Kernel.allocated]
  have others : ∀ q, q ≠ p →
      (kernel.allocated p entry).proc q = kernel.proc q := by
    intro q apart
    simp [Kernel.allocated, apart]
  have larger : ∀ q, q ≠ p →
      ((kernel.allocated p entry).proc q).state ≠ .unused →
        ((kernel.allocated p entry).proc q).pid < kernel.nextpid := by
    intro q apart usedQ
    rw [others q apart] at usedQ ⊢
    exact (pids.used q usedQ).2
  have positive := pids.next
  constructor
  case next =>
    change 1 ≤ kernel.nextpid + 1
    omega
  case free =>
    intro q unused
    by_cases same : q = p
    · subst same
      exact absurd (here ▸ unused) used
    · rw [others q same] at unused ⊢
      exact pids.free q unused
  case used =>
    intro q usedQ
    change _ ∧ _ < kernel.nextpid + 1
    by_cases same : q = p
    · subst same
      rw [here, pid]
      omega
    · have bound := larger q same usedQ
      rw [others q same] at usedQ bound ⊢
      have bounds := pids.used q usedQ
      omega
  case apart =>
    intro q r usedQ usedR equal
    by_cases sameQ : q = p
    · by_cases sameR : r = p
      · rw [sameQ, sameR]
      · have bound := larger r sameR usedR
        rw [← equal, sameQ, here, pid] at bound
        omega
    · have bound := larger q sameQ usedQ
      by_cases sameR : r = p
      · rw [equal, sameR, here, pid] at bound
        omega
      · rw [others q sameQ] at usedQ equal
        rw [others r sameR] at usedR equal
        exact pids.apart q r usedQ usedR equal

theorem step (pids : Pids kernel) (sound : Sound kernel) {c : Fin cpus}
    {op : Op n} (taken : Taken kernel c op next) : Pids next := by
  have running : ∀ p, kernel.cpu c = some p →
      (kernel.proc p).state ≠ .unused := by
    intro p busy
    rw [sound.running c p busy]
    decide
  cases taken with
  | stay => exact pids
  | dispatch p idle chosen =>
      have runnable := scanSoFar_scan kernel.proc
      rw [chosen] at runnable
      exact pids.update rfl (by simp [runnable.1])
  | wakeup chan =>
      refine pids.keep rfl ?_
      intro p
      have stirred := stirred_wakeup (some chan) (kernel.cpu c) kernel.proc p
      exact ⟨stirred.pid, stirred.state_eq_iff (by decide) (by decide)⟩
  | preempt op p accumulator busy tick =>
      exact pids.update rfl (by simp [running p busy])
  | fork memory p np busy unused => exact pids.born rfl (by simp [forkedProc])
  | forkFails memory p np busy unused =>
      refine pids.freed rfl rfl rfl ?_
      change kernel.nextpid ≤ kernel.nextpid + 1
      omega
  | sleep chan p busy => exact pids.update rfl (by simp [running p busy])
  | block addr copyout p busy blocked =>
      exact pids.update rfl (by simp [running p busy])
  | exit op status p busy other exits =>
      refine pids.keep rfl ?_
      intro q
      have entry := exit_entry status kernel.initproc p kernel.proc q
      refine ⟨entry.pid, ?_⟩
      by_cases same : q = p
      · subst same
        simp [Kernel.switched, (entry.leaves rfl).1, running q busy]
      · exact (entry.others same).state_eq_iff (by decide) (by decide)
  | reap addr copyout p child busy reaped =>
      exact pids.freed rfl rfl rfl (Int.le_refl _)
  | kill pid p victim busy found =>
      refine pids.update rfl ?_
      split
      · next asleep => simp [asleep]
      · rfl
  | setPsPriority priority p busy => exact pids.update rfl Iff.rfl

end Pids

/-- The only entry that `userinit` fills in. -/
theorem userinit_cases {kernel : Kernel n cpus}
    (started : userinit = some kernel) :
    ∃ p, kernel = { (procinit : Kernel n cpus).allocated p
      { freshProc (procinit : Kernel n cpus) p with state := .runnable } with
        initproc := some p } := by
  unfold userinit at started
  rcases allocproc_cases ⟨true, true, true⟩ (procinit : Kernel n cpus) with
    failed | ⟨p, unused, allocated | freed⟩
  · rw [failed] at started
    contradiction
  · rw [allocated] at started
    cases started
    refine ⟨p, ?_⟩
    simp [Kernel.allocated]
  · rw [freed] at started
    contradiction

theorem pids_procinit : Pids (procinit : Kernel n cpus) where
  next := Int.le_refl 1
  free _ _ := rfl
  used _ used := absurd rfl used
  apart _ _ used := absurd rfl used

theorem pids_of_reachable {kernel : Kernel n cpus}
    (reached : (kernelSystem n cpus).Reachable kernel) : Pids kernel := by
  refine reached.invariant Pids ?_ ?_
  · intro kernel started
    rcases userinit_cases started with ⟨p, rfl⟩
    have born : Pids ((procinit : Kernel n cpus).allocated p
        { freshProc (procinit : Kernel n cpus) p with state := .runnable }) :=
      pids_procinit.born rfl (by simp)
    exact ⟨born.next, born.free, born.used, born.apart⟩
  · intro kernel label next before pids taken
    exact pids.step (sound_of_reachable before) (taken_of_exec taken)

end OSCourse.Scheduling
