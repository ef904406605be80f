import OSCourse.Library.WaitFor
import OSCourse.Scheduling.ProcLocks

/-!
# Deadlock on the process locks

A processor that keeps the lock of one entry and goes on to take others is in
the way of another such processor when each has yet to pass the lock that the
other keeps.  As long as no processor starts to keep a lock while that would put
it in the way of another one, no set of processors is deadlocked.
`get_min_accumulator` takes the locks from the first entry on, below the one its
caller keeps, so without that condition two of them can block each other.
-/

namespace OSCourse.Scheduling

open OSCourse.Library.LockProgram
open OSCourse.Library.TransitionSystem
open OSCourse.Library.WaitFor

variable {n cpus : Nat}

/-! ## Locks that a processor keeps -/

/-- The locks a processor holds. -/
def Pc.locks : Pc n → List (Fin n)
  | .outside => []
  | .scan _ minP => minP.toList
  | .scanLocked p minP => p :: minP.toList
  | .dispatched p => [p]
  | .wakeup _ _ _ => []
  | .wakeupLocked _ _ p => [p]
  | .allocproc _ => []
  | .allocprocLocked p => [p]
  | .allocated p => [p]
  | .minAccumulator _ exceptP _ _ => [exceptP]
  | .minAccumulatorLocked _ exceptP p _ => [p, exceptP]
  | .kill _ _ => []
  | .killLocked _ p => [p]
  | .touch _ _ => []
  | .touchLocked p _ => [p]

/-- A lock kept while others are taken, and the first entry not yet passed. -/
structure Kept (n : Nat) where
  lock : Fin n
  next : Nat
deriving DecidableEq, Repr

/-- The lock a processor keeps while it takes others. -/
def Pc.keeps : Pc n → Option (Kept n)
  | .scan next minP => minP.map fun p => ⟨p, next⟩
  | .scanLocked p minP => minP.map fun best => ⟨best, p⟩
  | .minAccumulator _ exceptP next _ => some ⟨exceptP, next⟩
  | .minAccumulatorLocked _ exceptP p _ => some ⟨exceptP, p⟩
  | _ => none

/--
The lock a processor starts to keep with its next step: the new candidate of
the scan, or the process handed to `get_min_accumulator`.
-/
def Pc.startsKeeping (table : Table n) : Pc n → Option (Kept n)
  | .scanLocked p minP =>
      if (table p).state = .runnable ∧
          ∀ best ∈ minP, (table p).accumulator < (table best).accumulator then
        some ⟨p, p + 1⟩
      else
        none
  | .wakeupLocked chan _ p =>
      if (table p).state = .sleeping ∧ (table p).chan = chan then
        some ⟨p, 0⟩
      else
        none
  | .allocprocLocked p =>
      if (table p).state = .unused then some ⟨p, 0⟩ else none
  | _ => none

/-- Each has yet to pass the lock the other keeps. -/
def Kept.Crosses (first second : Kept n) : Prop :=
  first.next ≤ second.lock ∧ second.next ≤ first.lock

instance (first second : Kept n) : Decidable (first.Crosses second) :=
  inferInstanceAs (Decidable (_ ∧ _))

/--
The condition on a step of processor `c`: if it starts to keep a lock, then it
does not cross with any other processor.
-/
def Unobstructed (state : LockState n cpus) (label : LockLabel n cpus) :
    Prop :=
  ∀ kept ∈ (state.pc label.1).startsKeeping state.shared.proc,
    ∀ d, d ≠ label.1 → ∀ other ∈ (state.pc d).keeps, ¬ kept.Crosses other

instance (state : LockState n cpus) (label : LockLabel n cpus) :
    Decidable (Unobstructed state label) :=
  inferInstanceAs (Decidable (∀ kept ∈ _, _))

/-! ## Steps of one processor -/

/-- A processor that waits keeps at most one lock, and waits for the next. -/
theorem Pc.keeps_of_asks
    {pc : Pc n} {p held : Fin n}
    (asks : pc.asks = some p) (locked : held ∈ pc.locks) :
    pc.keeps = some ⟨held, p⟩ := by
  cases pc with
  | scan next minP =>
      have equal : next = p := entryAt_eq_some.mp asks
      have candidate : minP = some held := by
        simpa [Pc.locks] using locked
      rw [equal, candidate]
      rfl
  | minAccumulator caller exceptP next minAcc =>
      have equal : next = p := (filter_entryAt_eq_some.mp asks).1
      have same : held = exceptP := by
        simpa [Pc.locks] using locked
      rw [equal, same]
      rfl
  | wakeup chan me next => simp [Pc.locks] at locked
  | allocproc next => simp [Pc.locks] at locked
  | kill pid next => simp [Pc.locks] at locked
  | touch q entry => simp [Pc.locks] at locked
  | outside => cases asks
  | scanLocked q minP => cases asks
  | dispatched q => cases asks
  | wakeupLocked chan me q => cases asks
  | allocprocLocked q => cases asks
  | allocated q => cases asks
  | minAccumulatorLocked caller exceptP q minAcc => cases asks
  | killLocked pid q => cases asks
  | touchLocked q entry => cases asks

/-- An acquire adds its lock to those held and keeps what was kept. -/
theorem Pc.acquired_spec
    {pc : Pc n} {p : Fin n} (asks : pc.asks = some p) :
    (pc.acquired p).locks = p :: pc.locks ∧
      (pc.acquired p).keeps = pc.keeps := by
  cases pc with
  | scan next minP =>
      have equal : next = p := entryAt_eq_some.mp asks
      exact ⟨rfl, by rw [equal]; rfl⟩
  | minAccumulator caller exceptP next minAcc =>
      have equal : next = p := (filter_entryAt_eq_some.mp asks).1
      exact ⟨rfl, by rw [equal]; rfl⟩
  | wakeup chan me next => exact ⟨rfl, rfl⟩
  | allocproc next => exact ⟨rfl, rfl⟩
  | kill pid next => exact ⟨rfl, rfl⟩
  | touch q entry => exact ⟨rfl, rfl⟩
  | outside => cases asks
  | scanLocked q minP => cases asks
  | dispatched q => cases asks
  | wakeupLocked chan me q => cases asks
  | allocprocLocked q => cases asks
  | allocated q => cases asks
  | minAccumulatorLocked caller exceptP q minAcc => cases asks
  | killLocked pid q => cases asks
  | touchLocked q entry => cases asks

theorem Pc.locks_body
    {pc : Pc n} {shared : PidTable n} {memory : Bool}
    {effect : Effect (PidTable n) (Fin n) (Pc n)} (nodup : pc.locks.Nodup)
    (ran : pc.body shared memory = some effect) :
    effect.pc.locks.Nodup ∧
      (∀ p, p ∈ effect.pc.locks ↔
        p ∈ pc.locks ∧ effect.released ≠ some p) ∧
      ∀ p, effect.released = some p → p ∈ pc.locks := by
  cases pc with
  | outside => cases ran
  | touch q entry => cases ran
  | scan next minP =>
      cases minP with
      | none =>
          cases ran
          simp [Pc.locks]
      | some p =>
          cases ran
          simp [Pc.locks]
  | scanLocked p minP =>
      simp only [Pc.body] at ran
      split at ran
      · split at ran
        · cases ran
          simp [Pc.locks]
        · rename_i best
          have distinct : p ≠ best := by
            simpa [Pc.locks] using nodup
          split at ran
          · cases ran
            simp [Pc.locks]
            grind
          · cases ran
            simp [Pc.locks]
            grind
      · cases ran
        simp only [Pc.locks, List.nodup_cons] at nodup
        refine ⟨nodup.2, ?_, ?_⟩
        · simp only [Pc.locks, List.mem_cons]
          grind
        · simp [Pc.locks]
  | dispatched p =>
      cases ran
      simp [Pc.locks, eq_comm]
  | wakeup chan me next =>
      simp only [Pc.body] at ran
      split at ran <;> cases ran <;> simp [Pc.locks]
  | wakeupLocked chan me p =>
      simp only [Pc.body] at ran
      split at ran <;> cases ran <;> simp [Pc.locks, eq_comm]
  | allocproc next =>
      cases ran
      simp [Pc.locks]
  | allocprocLocked p =>
      simp only [Pc.body] at ran
      split at ran <;> cases ran <;> simp [Pc.locks, eq_comm]
  | allocated p =>
      simp only [Pc.body] at ran
      split at ran <;> cases ran <;> simp [Pc.locks, eq_comm]
  | minAccumulator caller exceptP next minAcc =>
      simp only [Pc.body] at ran
      split at ran
      · cases ran
        simp [Pc.locks]
      · split at ran <;> cases ran <;> simp [Pc.locks, eq_comm]
  | minAccumulatorLocked caller exceptP p minAcc =>
      have distinct : p ≠ exceptP := by
        simpa [Pc.locks] using nodup
      cases ran
      simp [Pc.locks]
      grind
  | kill pid next =>
      cases ran
      simp [Pc.locks]
  | killLocked pid p =>
      simp only [Pc.body] at ran
      split at ran <;> cases ran <;> simp [Pc.locks, eq_comm]
  | touchLocked p entry =>
      cases ran
      simp [Pc.locks, eq_comm]

/-- The holders of the process locks are those the program counters say. -/
theorem tracks_procProgram :
    (procProgram n cpus).Tracks fun _ => Pc.locks where
  outside _ := rfl
  enter _ routine := by
    cases routine <;> rfl
  acquired asks := (Pc.acquired_spec asks).1
  body nodup _ ran := Pc.locks_body nodup ran

/-- A lock that is kept was kept before, or the step started to keep it. -/
theorem Pc.keeps_body
    {pc : Pc n} {shared : PidTable n} {memory : Bool}
    {effect : Effect (PidTable n) (Fin n) (Pc n)}
    (ran : pc.body shared memory = some effect)
    {kept : Kept n} (keeps : kept ∈ effect.pc.keeps) :
    kept ∈ pc.startsKeeping shared.proc ∨
      ∃ before ∈ pc.keeps,
        before.lock = kept.lock ∧ before.next ≤ kept.next := by
  cases pc with
  | outside => cases ran
  | touch q entry => cases ran
  | scan next minP =>
      cases minP with
      | none =>
          cases ran
          cases keeps
      | some p =>
          cases ran
          cases keeps
  | scanLocked p minP =>
      simp only [Pc.body] at ran
      split at ran
      · rename_i runnable
        split at ran
        · cases ran
          cases keeps
          left
          simp [Pc.startsKeeping, runnable]
        · rename_i best
          split at ran
          · rename_i better
            cases ran
            cases keeps
            left
            simp [Pc.startsKeeping, runnable, better]
          · cases ran
            cases keeps
            right
            exact ⟨⟨best, p⟩, rfl, rfl, Nat.le_succ _⟩
      · cases ran
        right
        cases minP with
        | none => cases keeps
        | some best =>
            cases keeps
            exact ⟨⟨best, p⟩, rfl, rfl, Nat.le_succ _⟩
  | dispatched p =>
      cases ran
      cases keeps
  | wakeup chan me next =>
      simp only [Pc.body] at ran
      split at ran <;> cases ran <;> cases keeps
  | wakeupLocked chan me p =>
      simp only [Pc.body] at ran
      split at ran
      · rename_i woken
        cases ran
        cases keeps
        left
        simp [Pc.startsKeeping, woken.1, woken.2]
      · cases ran
        cases keeps
  | allocproc next =>
      cases ran
      cases keeps
  | allocprocLocked p =>
      simp only [Pc.body] at ran
      split at ran
      · rename_i unused
        cases ran
        cases keeps
        left
        simp [Pc.startsKeeping, unused]
      · cases ran
        cases keeps
  | allocated p =>
      simp only [Pc.body] at ran
      split at ran <;> cases ran <;> cases keeps
  | minAccumulator caller exceptP next minAcc =>
      simp only [Pc.body] at ran
      split at ran
      · cases ran
        cases keeps
        right
        exact ⟨⟨exceptP, next⟩, rfl, rfl, Nat.le_succ _⟩
      · split at ran <;> cases ran <;> cases keeps
  | minAccumulatorLocked caller exceptP p minAcc =>
      cases ran
      cases keeps
      right
      exact ⟨⟨exceptP, p⟩, rfl, rfl, Nat.le_succ _⟩
  | kill pid next =>
      cases ran
      cases keeps
  | killLocked pid p =>
      simp only [Pc.body] at ran
      split at ran <;> cases ran <;> cases keeps
  | touchLocked p entry =>
      cases ran
      cases keeps

theorem Routine.keeps_entry (routine : Routine n) :
    routine.entry.keeps = none := by
  cases routine <;> rfl

/-! ## No two processors cross -/

/-- No two processors have yet to pass the locks that they keep. -/
def Uncrossed (state : LockState n cpus) : Prop :=
  ∀ c d, c ≠ d → ∀ first ∈ (state.pc c).keeps, ∀ second ∈ (state.pc d).keeps,
    ¬ first.Crosses second

theorem Kept.Crosses.symm
    {first second : Kept n} (crosses : first.Crosses second) :
    second.Crosses first :=
  ⟨crosses.2, crosses.1⟩

/--
A step changes the lock that one processor keeps; it is enough that this one
does not cross with the others.
-/
theorem Uncrossed.update
    {state next : LockState n cpus} (uncrossed : Uncrossed state)
    (c : Fin cpus) {pc : Pc n}
    (moved : next.pc = Function.update state.pc c pc)
    (clear : ∀ kept ∈ pc.keeps, ∀ d, d ≠ c →
      ∀ other ∈ (state.pc d).keeps, ¬ kept.Crosses other) :
    Uncrossed next := by
  intro d e distinct first keepsFirst second keepsSecond crosses
  rw [moved] at keepsFirst keepsSecond
  by_cases isD : d = c
  · subst isD
    rw [Function.update_self] at keepsFirst
    rw [Function.update_of_ne distinct.symm] at keepsSecond
    exact clear first keepsFirst e distinct.symm second keepsSecond crosses
  · rw [Function.update_of_ne isD] at keepsFirst
    by_cases isE : e = c
    · subst isE
      rw [Function.update_self] at keepsSecond
      exact clear second keepsSecond d isD first keepsFirst crosses.symm
    · rw [Function.update_of_ne isE] at keepsSecond
      exact uncrossed d e distinct first keepsFirst second keepsSecond crosses

theorem Uncrossed.step
    {state next : LockState n cpus} {label : LockLabel n cpus}
    (uncrossed : Uncrossed state) (unobstructed : Unobstructed state label)
    (taken : (procProgram n cpus).Step state label next) :
    Uncrossed next := by
  cases taken with
  | call c routine outside =>
      refine uncrossed.update c rfl ?_
      intro kept keeps
      change kept ∈ routine.entry.keeps at keeps
      rw [Routine.keeps_entry] at keeps
      cases keeps
  | acquire c memory p asks free =>
      refine uncrossed.update c rfl ?_
      intro kept keeps d distinct other keepsOther
      change kept ∈ (Pc.acquired p (state.pc c)).keeps at keeps
      rw [(Pc.acquired_spec asks).2] at keeps
      exact uncrossed _ d distinct.symm kept keeps other keepsOther
  | body c memory effect asks ran =>
      refine uncrossed.update c rfl ?_
      intro kept keeps d distinct other keepsOther crosses
      rcases Pc.keeps_body ran keeps with
        starts | ⟨before, keepsBefore, lock, le⟩
      · exact unobstructed kept starts d distinct other keepsOther crosses
      · refine uncrossed _ d distinct.symm before keepsBefore other
          keepsOther ?_
        exact ⟨le.trans crosses.1, lock ▸ crosses.2⟩

theorem uncrossed_of_reachable
    {state : LockState n cpus}
    (reached : ((lockSystem n cpus).guarded Unobstructed).Reachable state) :
    Uncrossed state := by
  refine reached.invariant Uncrossed ?_ ?_
  · rintro state ⟨-, -, outside⟩ c d - first keeps
    rw [outside] at keeps
    cases keeps
  · rintro state label next - uncrossed ⟨unobstructed, taken⟩
    exact uncrossed.step unobstructed (Program.step_of_exec taken)

/--
In every run in which no processor starts to keep a lock that crosses with
another one, no set of processors is deadlocked on the process locks.
-/
theorem not_deadlocked_of_unobstructed
    {state : LockState n cpus}
    (reached : ((lockSystem n cpus).guarded Unobstructed).Reachable state)
    (processors : Set (Fin cpus)) :
    ¬ Deadlocked (Waits state) (Holds state) processors := by
  intro deadlocked
  have owned := Program.owned_of_reachable tracks_procProgram
    reached.of_guarded
  rcases deadlocked.exists_mutual with
    ⟨first, -, second, -, distinct, high, low, holdsHigh, holdsLow, waitsLow,
      asked, below, waitsAsked⟩
  have keepsHigh := Pc.keeps_of_asks waitsLow
    ((owned.owner first high).mp holdsHigh)
  have keepsLow := Pc.keeps_of_asks waitsAsked
    ((owned.owner second low).mp holdsLow)
  exact uncrossed_of_reachable reached first second distinct _ keepsHigh _
    keepsLow ⟨le_refl _, below⟩

/-! ## Two processors -/

/-- Two processes asleep on different channels, and two idle processors. -/
def bothAsleep : LockState 2 2 where
  shared :=
    { proc := fun p =>
        ⟨.sleeping, some (if p.val = 0 then .ticks else .other 0), false, 0,
          p + 1, none, 0, 5⟩
      nextpid := 3 }
  owner _ := none
  pc _ := .outside

/-- A step that the condition of the theorem allows. -/
def unobstructedStep (state : LockState n cpus) (label : LockLabel n cpus) :
    Option (LockState n cpus) :=
  if Unobstructed state label then (procProgram n cpus).exec state label
  else none

theorem reachable_unobstructedStep
    {state last : LockState n cpus}
    (reached : ((lockSystem n cpus).guarded Unobstructed).Reachable state)
    {labels : List (LockLabel n cpus)}
    (run : labels.foldlM unobstructedStep state = some last) :
    ((lockSystem n cpus).guarded Unobstructed).Reachable last := by
  refine reached.of_run ?_ run
  intro state label next taken
  unfold unobstructedStep at taken
  split at taken
  · rename_i unobstructed
    exact ⟨unobstructed, taken⟩
  · cases taken

/-- One of two processors. -/
def firstCpu : Fin 2 := ⟨0, Nat.two_pos⟩

/-- The other one. -/
def secondCpu : Fin 2 := ⟨1, Nat.one_lt_two⟩

/--
The timer wakes the first process and is at the lock of the second one, which
another processor holds in `kill`.
-/
def wakeupAgainstKill : List (LockLabel 2 2) :=
  [(secondCpu, .call (.kill 2)), (secondCpu, .go true), (secondCpu, .go true),
    (secondCpu, .go true), (firstCpu, .call (.wakeup (some .ticks) none)),
    (firstCpu, .go true), (firstCpu, .go true), (firstCpu, .go true)]

/--
Both processors wake a process; the second one has passed the first entry and
taken the lock of its sleeper before the first one takes a lock.
-/
def wakeupAgainstWakeup : List (LockLabel 2 2) :=
  [(secondCpu, .call (.wakeup (some (.other 0)) none)), (secondCpu, .go true),
    (secondCpu, .go true), (secondCpu, .go true),
    (firstCpu, .call (.wakeup (some .ticks) none)), (firstCpu, .go true),
    (secondCpu, .go true), (firstCpu, .go true), (firstCpu, .go true)]

theorem not_deadlocked_wakeupAgainstKill :
    ¬ Deadlocked
      (Waits ((wakeupAgainstKill.foldlM unobstructedStep bothAsleep).get
        (by decide)))
      (Holds ((wakeupAgainstKill.foldlM unobstructedStep bothAsleep).get
        (by decide)))
      Set.univ :=
  not_deadlocked_of_unobstructed
    (reachable_unobstructedStep
      (.start ⟨trivial, fun _ => rfl, fun _ => rfl⟩)
      (Option.some_get _).symm)
    Set.univ

/--
Two calls of `wakeup` on different channels: each processor keeps the lock of
its own sleeper and waits in `get_min_accumulator` for that of the other.
-/
theorem wakeup_deadlocks_wakeup :
    ¬ ∀ (n cpus : Nat) (state : LockState n cpus),
      (lockSystem n cpus).Reachable state →
        ∀ processors, ¬ Deadlocked (Waits state) (Holds state) processors := by
  intro free
  have initial : (lockSystem 2 2).Reachable bothAsleep :=
    .start ⟨trivial, fun _ => rfl, fun _ => rfl⟩
  have run : wakeupAgainstWakeup.foldlM (procProgram 2 2).exec bothAsleep =
      some ((wakeupAgainstWakeup.foldlM (procProgram 2 2).exec
        bothAsleep).get (by decide)) :=
    (Option.some_get _).symm
  have reached := initial.of_run (fun _ _ _ taken => taken) run
  refine free 2 2 _ reached Set.univ ⟨⟨0, trivial⟩, ?_⟩
  intro c _
  match c with
  | 0 => exact ⟨1, rfl, 1, trivial, by decide, rfl⟩
  | 1 => exact ⟨0, rfl, 0, trivial, by decide, rfl⟩

end OSCourse.Scheduling
