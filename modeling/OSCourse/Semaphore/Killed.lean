import OSCourse.Semaphore.Wakeups

/-!
# Killing a process that waits

`kill` marks its victim and makes it RUNNABLE.  The loops of `wait` and
`sys_sleep` look at the mark; the loop of `sem_down` only looks at the value.  A
victim that finds a unit leaves `sem_down`; one that finds none goes back to
sleep with its mark set.
-/

namespace OSCourse.Semaphore

open OSCourse.Library.LockProgram
open OSCourse.Library.TransitionSystem

variable {m n : Nat}

/-! ## After the kill -/

/-- `kill` is about to mark the process `victim`, which is blocked in `sem_down`
on the slot. -/
structure Kills (killer victim : Fin n) (id : Fin m) (state : SemState m n) :
    Prop where
  reached : (semSystem m n).Reachable state
  kill : ∃ pid, state.pc killer = .killLocked pid victim ∧
    (state.shared.procs victim).pid = pid
  blocked : state.pc victim = .asleep id
  sleeping : (state.shared.procs victim).state = .sleeping

/-- `kill` has returned 0 for `victim`. -/
def Killed (victim : Fin n) (id : Fin m) (first : SemState m n) : Prop :=
  ∃ killer before, Kills killer victim id before ∧
    (semProgram m n).exec before (killer, .go ()) = some first

/-- The runs in which `victim` is in its call or has returned from it. -/
def sameCall (victim : Fin n) (first : SemState m n) :
    System (SemState m n) (SemLabel n) :=
  ((semSystem m n).startingAt first).guarded
    fun _ label => label.1 = victim → label.2.routine = none

/-- If the step is a test of the value by `victim`, there is a unit. -/
def FindsUnit (victim : Fin n) (state : SemState m n) (label : SemLabel n) :
    Prop :=
  label.1 = victim → ∀ id, state.pc victim = .downTest id →
    (state.shared.sems id).value ≠ 0

/-- The places in `sem_down` after a sleep, without a new one. -/
inductive Pc.Leaves (id : Fin m) : Pc m n → Prop where
  | asleep : Leaves id (.asleep id)
  | tidy : Leaves id (.sleepTidy id)
  | reacquire : Leaves id (.downReacquire id)
  | test : Leaves id (.downTest id)
  | decrement : Leaves id (.downDecrement id)
  | done : Leaves id (.downReturn id 0)
  | outside : Leaves id .outside

/-- The victim is marked, and awake on its way out of `sem_down`. -/
structure Released (victim : Fin n) (id : Fin m) (state : SemState m n) :
    Prop where
  leaves : (state.pc victim).Leaves id
  awake : (state.shared.procs victim).state ≠ .sleeping
  killed : (state.shared.procs victim).killed = true

/-! ## One step -/

/-- A mark stays. -/
theorem Pc.killed_body
    {p q : Fin n} {shared : Shared m n} {pc : Pc m n}
    {effect : Effect (Shared m n) (Lock m n) (Pc m n)} :
    pc.body p shared = some effect → (shared.procs q).killed = true →
      (effect.shared.procs q).killed = true := by
  fun_cases Pc.body p shared pc <;> rintro ⟨⟩ <;> grind

/-- A process that finds a unit does not go to sleep. -/
theorem Pc.Leaves.body
    {p : Fin n} {shared : Shared m n} {pc : Pc m n} {id : Fin m}
    {effect : Effect (Shared m n) (Lock m n) (Pc m n)}
    (leaves : pc.Leaves id) (awake : (shared.procs p).state ≠ .sleeping)
    (unit : pc = .downTest id → (shared.sems id).value ≠ 0)
    (ran : pc.body p shared = some effect) :
    effect.pc.Leaves id ∧ (effect.shared.procs p).state ≠ .sleeping := by
  cases leaves with
  | asleep => cases ran
  | tidy =>
      cases ran
      exact ⟨.reacquire, by simp⟩
  | reacquire => cases ran
  | test =>
      simp only [Pc.body, if_neg (unit rfl)] at ran
      cases ran
      exact ⟨.decrement, awake⟩
  | decrement =>
      cases ran
      exact ⟨.done, awake⟩
  | done =>
      cases ran
      exact ⟨.outside, awake⟩
  | outside => cases ran

theorem Pc.Leaves.acquired
    {p : Fin n} {shared : Shared m n} {pc : Pc m n} {id : Fin m}
    {lock : Lock m n} (leaves : pc.Leaves id)
    (asks : pc.asks p shared = some lock) :
    (pc.acquired lock).Leaves id := by
  cases leaves with
  | asleep => exact .tidy
  | reacquire => exact .test
  | tidy => cases asks
  | test => cases asks
  | decrement => cases asks
  | done => cases asks
  | outside => cases asks

theorem Released.step
    {victim : Fin n} {id : Fin m} {state next : SemState m n}
    {label : SemLabel n} (released : Released victim id state)
    (same : label.1 = victim → label.2.routine = none)
    (unit : FindsUnit victim state label)
    (taken : SemStep state label next) :
    Released victim id next := by
  cases taken with
  | advance p move pc owner moves =>
      refine ⟨?_, released.awake, released.killed⟩
      by_cases mine : victim = p
      · subst mine
        cases moves with
        | call routine idle => cases same rfl
        | acquire choice lock asks =>
            simp only [Function.update_self]
            exact released.leaves.acquired asks
      · simpa only [Function.update_of_ne mine] using released.leaves
  | body p choice effect asks ran =>
      have killed := Pc.killed_body ran released.killed
      by_cases mine : victim = p
      · subst mine
        rcases released.leaves.body released.awake (unit rfl id) ran with
          ⟨leaves, awake⟩
        refine ⟨?_, awake, killed⟩
        rw [apply_pc, if_pos rfl]
        exact leaves
      · refine ⟨?_, ?_, killed⟩
        · rw [apply_pc, if_neg mine]
          exact released.leaves
        · exact fun sleeping =>
            released.awake (Pc.sleeping_body_other mine ran sleeping)

/-- `kill` wakes its victim. -/
theorem Killed.released
    {victim : Fin n} {id : Fin m} {first : SemState m n}
    (killed : Killed victim id first) :
    Released victim id first := by
  rcases killed with ⟨killer, before, kills, taken⟩
  rcases kills.kill with ⟨pid, killing, named⟩
  have other : victim ≠ killer := by
    rintro rfl
    rw [kills.blocked] at killing
    cases killing
  rcases Program.body_of_exec (congrArg (Pc.asks killer before.shared) killing)
    taken with ⟨effect, ran, rfl⟩
  have ran : (before.pc killer).body killer before.shared = some effect := ran
  simp only [killing, Pc.body, named, if_true, kills.sleeping,
    Option.some.injEq] at ran
  subst ran
  constructor
  case leaves =>
    rw [apply_pc, if_neg other, kills.blocked]
    exact .asleep
  case awake => simp [Program.apply]
  case killed => simp [Program.apply]

/-! ## The run -/

/--
A process that was killed while it was blocked in `sem_down` does not become
SLEEPING again in that call, if there is a unit whenever it tests the value
again.
-/
theorem killed_stays_awake
    {victim : Fin n}
    {id : Fin m}
    {first state : SemState m n}
    (killed : Killed victim id first)
    (reached : ((sameCall victim first).guarded
      (FindsUnit victim)).Reachable state) :
    (state.shared.procs victim).state ≠ .sleeping ∧
      (state.shared.procs victim).killed = true := by
  have released : Released victim id state := by
    refine reached.invariant (Released victim id) ?_ ?_
    · rintro state rfl
      exact killed.released
    · rintro state label next _ released ⟨unit, same, taken⟩
      exact released.step same unit (semStep_of_exec taken)
  exact ⟨released.awake, released.killed⟩

/-! ## Without a unit -/

/-- The places between a test that found no unit and the sleep. -/
inductive Pc.Dozes (id : Fin m) : Pc m n → Prop where
  | acquire : Dozes id (.sleepAcquire id)
  | release : Dozes id (.sleepRelease id)
  | mark : Dozes id (.sleepMark id)

/-- A process on its way to sleep comes no further than to sleep. -/
theorem Pc.Dozes.body
    {p : Fin n} {shared : Shared m n} {pc : Pc m n} {id : Fin m}
    {effect : Effect (Shared m n) (Lock m n) (Pc m n)}
    (dozes : pc.Dozes id) (ran : pc.body p shared = some effect) :
    effect.pc.Dozes id ∨ (effect.shared.procs p).state = .sleeping := by
  cases dozes with
  | acquire => cases ran
  | release =>
      cases ran
      exact .inl .mark
  | mark =>
      cases ran
      exact .inr (by simp)

theorem dozes_or_sleeps
    {victim : Fin n} {id : Fin m} {state next : SemState m n}
    {label : SemLabel n} (dozes : (state.pc victim).Dozes id)
    (same : label.1 = victim → label.2.routine = none)
    (taken : SemStep state label next) :
    (next.pc victim).Dozes id ∨
      (next.shared.procs victim).state = .sleeping := by
  cases taken with
  | advance p move pc owner moves =>
      by_cases mine : victim = p
      · subst mine
        simp only [Function.update_self]
        cases moves with
        | call routine idle => cases same rfl
        | acquire choice lock asks =>
            generalize state.pc victim = before at asks dozes
            cases dozes with
            | acquire => exact .inl .release
            | release => cases asks
            | mark => cases asks
      · exact .inl (by simpa only [Function.update_of_ne mine] using dozes)
  | body p choice effect asks ran =>
      by_cases mine : victim = p
      · subst mine
        rw [apply_pc, if_pos rfl]
        exact dozes.body ran
      · rw [apply_pc, if_neg mine]
        exact .inl dozes

/-- A call that returns after such a test has slept in between. -/
theorem sleeps_of_dozes
    {victim : Fin n} {id : Fin m} {origin state last : SemState m n}
    {steps : List (Transition (SemState m n) (SemLabel n))}
    (stretch : (sameCall victim origin).Stretch state steps last)
    (dozes : (state.pc victim).Dozes id)
    (returned : last.pc victim = .outside) :
    ∃ step ∈ steps,
      (step.after.shared.procs victim).state = .sleeping := by
  induction stretch with
  | nil =>
      rw [returned] at dozes
      cases dozes
  | @cons state next last label rest taken _ induction =>
      rcases dozes_or_sleeps dozes taken.1 (semStep_of_exec taken.2) with
        still | sleeping
      · rcases induction still returned with ⟨step, later, sleeping⟩
        exact ⟨step, List.mem_cons_of_mem _ later, sleeping⟩
      · exact ⟨_, List.mem_cons_self, sleeping⟩

/-- A test that finds no unit sends the process to sleep. -/
theorem dozes_of_test
    {victim : Fin n} {id : Fin m} {state next : SemState m n}
    {label : SemLabel n} (mine : label.1 = victim)
    (testing : state.pc victim = .downTest id)
    (empty : (state.shared.sems id).value = 0)
    (taken : SemStep state label next) :
    (next.pc victim).Dozes id := by
  subst mine
  cases taken with
  | advance p move pc owner moves =>
      dsimp only at testing
      cases moves with
      | call routine idle =>
          rw [testing] at idle
          cases idle
      | acquire choice lock asks =>
          rw [testing] at asks
          cases asks
  | body p choice effect asks ran =>
      dsimp only at testing
      simp only [testing, Pc.body, empty, if_true, Option.some.injEq] at ran
      subst ran
      rw [apply_pc, if_pos rfl]
      exact .acquire

theorem findsUnit_of_awake
    {victim : Fin n} {origin state last : SemState m n}
    {steps : List (Transition (SemState m n) (SemLabel n))}
    (stretch : (sameCall victim origin).Stretch state steps last)
    (returned : last.pc victim = .outside)
    (awake : ∀ step ∈ steps,
      (step.after.shared.procs victim).state ≠ .sleeping) :
    ∀ step ∈ steps, FindsUnit victim step.before step.label := by
  induction stretch with
  | nil => simp
  | @cons state next last label rest taken following induction =>
      have later := fun step member =>
        awake step (List.mem_cons_of_mem _ member)
      intro step member
      rcases List.mem_cons.mp member with rfl | member
      · intro mine id testing empty
        have dozes :=
          dozes_of_test mine testing empty (semStep_of_exec taken.2)
        rcases sleeps_of_dozes following dozes returned with
          ⟨step, member, sleeping⟩
        exact later step member sleeping
      · exact induction returned later step member

theorem awake_of_findsUnit
    {victim : Fin n} {id : Fin m} {origin state last : SemState m n}
    {steps : List (Transition (SemState m n) (SemLabel n))}
    (stretch : (sameCall victim origin).Stretch state steps last)
    (released : Released victim id state)
    (units : ∀ step ∈ steps, FindsUnit victim step.before step.label) :
    ∀ step ∈ steps,
      (step.after.shared.procs victim).state ≠ .sleeping := by
  induction stretch with
  | nil => simp
  | @cons state next last label rest taken _ induction =>
      have after := released.step taken.1 (units _ List.mem_cons_self)
        (semStep_of_exec taken.2)
      intro step member
      rcases List.mem_cons.mp member with rfl | member
      · exact after.awake
      · exact induction after
          (fun step member => units step (List.mem_cons_of_mem _ member))
          step member

/--
The condition is exact: in a run in which the killed process returns from its
call, it never becomes SLEEPING exactly if every test of the value found a unit.
-/
theorem returned_awake_iff
    {victim : Fin n}
    {id : Fin m}
    {first last : SemState m n}
    {steps : List (Transition (SemState m n) (SemLabel n))}
    (killed : Killed victim id first)
    (stretch : (sameCall victim first).Stretch first steps last)
    (returned : last.pc victim = .outside) :
    (∀ step ∈ steps,
      (step.after.shared.procs victim).state ≠ .sleeping) ↔
        ∀ step ∈ steps, FindsUnit victim step.before step.label := by
  constructor
  · exact findsUnit_of_awake stretch returned
  · exact awake_of_findsUnit stretch killed.released

/-! ## A victim in a small run -/

/-- The user sleeps on a slot without units, and `kill` has reached it. -/
def killing : SemState 1 2 :=
  (List.foldlM (semProgram 1 2).exec noUnit
    (goOn creator 1 ++ (user, .call (.semDown onlySlot)) :: goOn user 7 ++
      (creator, .call (.kill 2)) :: goOn creator 3)).get (by decide)

/-- `kill` has returned 0. -/
def victimKilled : SemState 1 2 :=
  ((semProgram 1 2).exec killing (creator, .go ())).get (by decide)

theorem killed_victimKilled : Killed user onlySlot victimKilled := by
  refine ⟨creator, killing, ?_, (Option.some_get _).symm⟩
  constructor
  case reached =>
    have created : (semSystem 1 2).Reachable noUnit :=
      reachable_booted.of_run (fun _ _ _ taken => taken)
        (Option.some_get _).symm
    exact created.of_run (fun _ _ _ taken => taken) (Option.some_get _).symm
  case kill => exact ⟨2, by decide, by decide⟩
  case blocked => decide
  case sleeping => decide

instance (victim : Fin n) (state : SemState m n) (label : SemLabel n) :
    Decidable (FindsUnit victim state label) :=
  inferInstanceAs (Decidable (_ → ∀ _, _ → _))

/-- A step of the victim's call, or of another process. -/
def sameCallStep (victim : Fin n) (state : SemState m n)
    (label : SemLabel n) : Option (SemState m n) :=
  if label.1 = victim → label.2.routine = none then
    (semProgram m n).exec state label
  else
    none

theorem sameCallStep_sound
    {victim : Fin n} (first state : SemState m n) (label : SemLabel n)
    (next : SemState m n)
    (taken : sameCallStep victim state label = some next) :
    (sameCall victim first).step state label next := by
  unfold sameCallStep at taken
  split at taken
  · rename_i same
    exact ⟨same, taken⟩
  · cases taken

/-- A step at which the victim finds a unit if it tests the value. -/
def unitStep (victim : Fin n) (state : SemState m n) (label : SemLabel n) :
    Option (SemState m n) :=
  if FindsUnit victim state label then sameCallStep victim state label
  else none

theorem unitStep_sound
    {victim : Fin n} (first state : SemState m n) (label : SemLabel n)
    (next : SemState m n)
    (taken : unitStep victim state label = some next) :
    ((sameCall victim first).guarded (FindsUnit victim)).step state label
      next := by
  unfold unitStep at taken
  split at taken
  · rename_i unit
    exact ⟨unit, sameCallStep_sound first state label next taken⟩
  · cases taken

/-- The creator gives a unit, and the victim returns from `sem_down`. -/
def victimReturned : SemState 1 2 :=
  (List.foldlM (unitStep user) victimKilled
    ((creator, .call (.semUp onlySlot)) :: goOn creator 8 ++
      goOn user 6)).get (by decide)

theorem killed_stays_awake_victimReturned :
    victimReturned.pc user = .outside ∧
      (victimReturned.shared.procs user).state ≠ .sleeping ∧
      (victimReturned.shared.procs user).killed = true :=
  ⟨by decide,
    killed_stays_awake killed_victimKilled
      (System.Reachable.of_run (unitStep_sound victimKilled) (.start rfl)
        (Option.some_get _).symm)⟩

/-- Nobody gives a unit, and the victim runs on. -/
def victimAsleep : SemState 1 2 :=
  (List.foldlM (sameCallStep user) victimKilled (goOn user 8)).get
    (by decide)

/-- The killed process is SLEEPING again, in the same call. -/
theorem killed_sleeps_again :
    Killed user onlySlot victimKilled ∧
      (sameCall user victimKilled).Reachable victimAsleep ∧
      victimAsleep.pc user = .asleep onlySlot ∧
      (victimAsleep.shared.procs user).state = .sleeping ∧
      (victimAsleep.shared.procs user).chan = some onlySlot ∧
      (victimAsleep.shared.procs user).killed = true := by
  refine ⟨killed_victimKilled, ?_, by decide⟩
  exact System.Reachable.of_run (sameCallStep_sound victimKilled)
    (.start rfl) (Option.some_get _).symm

end OSCourse.Semaphore
