import OSCourse.Semaphore.Wakeups

/-!
# Freeing a semaphore that is waited for

`sem_free` takes a slot for unused when its value is its initial value.  A
process that `sem_up` or `kill` has woken and that has not yet run again is not
counted by that, and a semaphore created with 0 has its initial value while
processes sleep on it.  When the slot is freed only after every `sem_down` that
was started on it has returned, no process is left inside `sem_down` when
`sem_free` returns 0, and none goes on under a later creation.
-/

namespace OSCourse.Semaphore

open OSCourse.Library.LockProgram
open OSCourse.Library.TransitionSystem

variable {m n : Nat}

/-! ## The condition -/

/-- The slot of a `sem_down` call that has been started and has not returned. -/
def Pc.down : Pc m n → Option (Fin m)
  | .downAcquire id => some id
  | .downCheck id => some id
  | .downTest id => some id
  | .sleepAcquire id => some id
  | .sleepRelease id => some id
  | .sleepMark id => some id
  | .sleepSched id => some id
  | .asleep id => some id
  | .sleepTidy id => some id
  | .downReacquire id => some id
  | .downDecrement id => some id
  | .downReturn id _ => some id
  | _ => none

/--
The condition on a step: a slot is freed only when every `sem_down` call on it
that was started has returned.
-/
def Careful (state : SemState m n) (label : SemLabel n) : Prop :=
  ∀ id, Frees id state label → ∀ q, (state.pc q).down ≠ some id

instance (state : SemState m n) (label : SemLabel n) :
    Decidable (Careful state label) :=
  inferInstanceAs (Decidable (∀ _, _ → ∀ _, _))

theorem Pc.down_of_past
    {pc : Pc m n} {id : Fin m} (past : pc.past = some id) :
    pc.down = some id := by
  cases pc <;> grind [Pc.past, Pc.down]

/-! ## The invariant -/

/--
Nobody is inside `sem_down` on a slot that is not in use, and a process inside
is on the creation under which it made its used check.
-/
structure Safe (state : SemState m n) : Prop where
  unused : ∀ id, (state.shared.sems id).used = false →
    ∀ q, (state.pc q).past ≠ some id
  passed : ∀ id q, (state.pc q).past = some id →
    state.shared.passed q = state.shared.creations id
  freed : ∀ id p, (state.pc p).Freed id → (state.shared.sems id).used = false

theorem Pc.array_of_freed
    {pc : Pc m n} {id : Fin m} (p : Fin n) (freed : pc.Freed id) :
    Lock.array ∈ pc.locks p := by
  rcases freed with rfl | rfl <;> simp [Pc.locks]

theorem Safe.advance
    {state : SemState m n} {p : Fin n} {move : Move Call Unit} {pc : Pc m n}
    {owner : Lock m n → Option (Fin n)} (safe : Safe state)
    (moves : Advance p state.shared (state.pc p) move pc) :
    Safe ⟨state.shared, owner, Function.update state.pc p pc⟩ := by
  have bystander := moves.bystander
  have pcs : ∀ q, Function.update state.pc p pc q =
      if q = p then pc else state.pc q :=
    fun q => Function.update_apply _ _ _ _
  constructor <;> simp only [pcs]
  · intro id unused q past
    refine safe.unused id unused q ?_
    split at past
    · rename_i same
      subst same
      rw [← bystander.past, past]
    · exact past
  · intro id q past
    refine safe.passed id q ?_
    split at past
    · rename_i same
      subst same
      rw [← bystander.past, past]
    · exact past
  · intro id q freed
    split at freed
    · exact absurd freed (bystander.freed id)
    · exact safe.freed id q freed

/-! ### Code between acquires -/

section Body

variable {state : SemState m n} {p : Fin n}
variable {effect : Effect (Shared m n) (Lock m n) (Pc m n)}

theorem Safe.unused_apply
    (safe : Safe state) (careful : Careful state (p, .go ()))
    (ran : (state.pc p).body p state.shared = some effect)
    (id : Fin m) (unused : (effect.shared.sems id).used = false)
    (q : Fin n) :
    ((Program.apply state p effect).pc q).past ≠ some id := by
  intro past
  have wasPast : (state.pc q).past = some id ∨
      (state.shared.sems id).used = true := by
    rw [apply_pc] at past
    split at past
    · rename_i same
      subst same
      rcases Pc.past_body ran past with ⟨before, -⟩ | ⟨used, -⟩
      · exact .inl before
      · exact .inr used
    · exact .inl past
  by_cases used : (state.shared.sems id).used = true
  · have freed : state.pc p = .freeTest id ∧
        (state.shared.sems id).value = (state.shared.sems id).initValue ∧
        effect.pc = .freeReleaseSem id 0 := by
      cases Pc.slotStep id ran with
      | free equal here after goto => exact ⟨here, equal, goto⟩
      | _ => simp_all
    rw [apply_pc] at past
    split at past
    · simp [freed.2.2, Pc.past] at past
    · exact careful id ⟨freed.1, freed.2.1⟩ q (Pc.down_of_past past)
  · rcases wasPast with before | now
    · exact safe.unused id (by simpa using used) q before
    · exact used now

theorem Safe.passed_apply
    (safe : Safe state)
    (ran : (state.pc p).body p state.shared = some effect)
    (id : Fin m) (q : Fin n)
    (past : ((Program.apply state p effect).pc q).past = some id) :
    effect.shared.passed q = effect.shared.creations id := by
  have kept : (state.pc q).past = some id →
      effect.shared.passed q = state.shared.passed q →
        effect.shared.passed q = effect.shared.creations id := by
    intro before same
    have used : (state.shared.sems id).used = true := by
      by_contra unused
      exact safe.unused id (by simpa using unused) q before
    rw [same, Pc.creations_body used ran]
    exact safe.passed id q before
  rw [apply_pc] at past
  split at past
  · rename_i same
    subst same
    rcases Pc.past_body ran past with ⟨before, unchanged⟩ | ⟨-, now⟩
    · exact kept before unchanged
    · exact now
  · rename_i distinct
    exact kept past (Pc.passed_body distinct ran)

theorem Safe.freed_apply
    (owned : Owned state) (safe : Safe state)
    (ran : (state.pc p).body p state.shared = some effect)
    (id : Fin m) (q : Fin n)
    (freed : ((Program.apply state p effect).pc q).Freed id) :
    (effect.shared.sems id).used = false := by
  rw [apply_pc] at freed
  split at freed
  · rename_i same
    subst same
    rcases Pc.freed_body ran freed with now | ⟨before, unchanged⟩
    · exact now
    · rw [unchanged]
      exact safe.freed id q before
  · rename_i distinct
    have unused := safe.freed id q freed
    cases Pc.slotStep id ran with
    | take w _ here after goto =>
        exact absurd (owned.unique (Pc.array_of_freed q freed)
          (by simp [here, Pc.locks])) distinct
    | keep same _ _ _ _ _ => rw [same, unused]
    | value w here after goto => rw [after, unused]
    | init w here after goto => rw [after, unused]
    | free equal here after goto => rw [after]
    | down here after goto => rw [after, unused]
    | up here after goto => rw [after, unused]

end Body

theorem Safe.step
    {state next : SemState m n} {label : SemLabel n} (owned : Owned state)
    (safe : Safe state) (careful : Careful state label)
    (taken : SemStep state label next) :
    Safe next := by
  cases taken with
  | advance p move pc owner moves => exact safe.advance moves
  | body p choice effect asks ran =>
      exact
        { unused := safe.unused_apply careful ran
          passed := safe.passed_apply ran
          freed := safe.freed_apply owned ran }

theorem safe_of_reachable
    {state : SemState m n}
    (reached : ((semSystem m n).guarded Careful).Reachable state) :
    Safe state := by
  refine reached.invariant Safe ?_ ?_
  · rintro state ⟨-, -, idle⟩
    have outside : ∀ q, state.pc q = .outside := idle
    constructor <;> simp [outside, Pc.past, Pc.Freed]
  · rintro state label next before safe ⟨careful, taken⟩
    exact safe.step (owned_of_reachable before.of_guarded) careful
      (semStep_of_exec taken)

/-- What `sem_free` owes to the processes inside `sem_down`. -/
structure FreeLaw (state : SemState m n) : Prop where
  empty : ∀ id p, (state.pc p).Freed id → ∀ q, (state.pc q).past ≠ some id
  sameCreation : ∀ id q, (state.pc q).past = some id →
    state.shared.passed q = state.shared.creations id

/--
In every run whose steps meet the condition, no process is inside `sem_down`
past its used check when `sem_free` returns 0, and a `sem_down` past its used
check is always on the creation of the slot under which it made the check.
-/
theorem freeLaw_of_careful
    {state : SemState m n}
    (reached : ((semSystem m n).guarded Careful).Reachable state) :
    FreeLaw state := by
  have safe := safe_of_reachable reached
  constructor
  · intro id p freed q
    exact safe.unused id (safe.freed id p freed) q
  · exact safe.passed

/-! ## A discipline of the callers -/

/-- The slot of a `sem_free` call that has been started and has not returned. -/
def Pc.freeing : Pc m n → Option (Fin m)
  | .freeAcquire id => some id
  | .freeCheck id => some id
  | .freeAcquireSem id => some id
  | .freeTest id => some id
  | .freeReleaseSem id _ => some id
  | .freeReturn id _ => some id
  | _ => none

/--
A condition on the calls alone: `sem_free` and `sem_down` on a slot are not
under way at the same time.
-/
structure Disciplined (state : SemState m n) (label : SemLabel n) : Prop where
  free : ∀ routine ∈ label.2.routine, ∀ id,
    (routine.entry : Pc m n).freeing = some id →
      ∀ q, (state.pc q).down ≠ some id
  down : ∀ routine ∈ label.2.routine, ∀ id,
    (routine.entry : Pc m n).down = some id →
      ∀ q, (state.pc q).freeing ≠ some id

/-- No `sem_free` is under way on a slot with a `sem_down` under way. -/
def Apart (state : SemState m n) : Prop :=
  ∀ id p q, (state.pc p).freeing = some id → (state.pc q).down ≠ some id

theorem Pc.down_body
    {p : Fin n} {shared : Shared m n} {pc : Pc m n}
    {effect : Effect (Shared m n) (Lock m n) (Pc m n)} {id : Fin m} :
    pc.body p shared = some effect →
      effect.pc.down = some id → pc.down = some id := by
  fun_cases Pc.body p shared pc <;> rintro ⟨⟩ <;> simp [Pc.down]

theorem Pc.freeing_body
    {p : Fin n} {shared : Shared m n} {pc : Pc m n}
    {effect : Effect (Shared m n) (Lock m n) (Pc m n)} {id : Fin m} :
    pc.body p shared = some effect →
      effect.pc.freeing = some id → pc.freeing = some id := by
  fun_cases Pc.body p shared pc <;> rintro ⟨⟩ <;> simp [Pc.freeing]

theorem Pc.acquired_calls
    {p : Fin n} {shared : Shared m n} {pc : Pc m n} {lock : Lock m n}
    (asks : pc.asks p shared = some lock) :
    (pc.acquired lock).down = pc.down ∧
      (pc.acquired lock).freeing = pc.freeing := by
  cases pc with
  | wakeup id next =>
      rcases Option.map_eq_some_iff.mp asks with ⟨q, -, rfl⟩
      exact ⟨rfl, rfl⟩
  | kill pid next =>
      rcases Option.map_eq_some_iff.mp asks with ⟨q, -, rfl⟩
      exact ⟨rfl, rfl⟩
  | asleep id => exact ⟨rfl, rfl⟩
  | _ => cases asks <;> exact ⟨rfl, rfl⟩

/-- A call is under way after a step when it was before, or the step starts
it. -/
theorem SemStep.calls
    {state next : SemState m n} {label : SemLabel n}
    (taken : SemStep state label next) (id : Fin m) (q : Fin n) :
    ((next.pc q).down = some id → (state.pc q).down = some id ∨
        ∃ routine ∈ label.2.routine,
          (routine.entry : Pc m n).down = some id) ∧
      ((next.pc q).freeing = some id → (state.pc q).freeing = some id ∨
        ∃ routine ∈ label.2.routine,
          (routine.entry : Pc m n).freeing = some id) := by
  cases taken with
  | advance p move pc owner moves =>
      by_cases same : q = p
      · subst same
        simp only [Function.update_self]
        cases moves with
        | call routine idle =>
            exact ⟨fun down => .inr ⟨routine, rfl, down⟩,
              fun freeing => .inr ⟨routine, rfl, freeing⟩⟩
        | acquire choice lock asks =>
            rcases Pc.acquired_calls asks with ⟨down, freeing⟩
            rw [down, freeing]
            exact ⟨.inl, .inl⟩
      · simp only [Function.update_of_ne same]
        exact ⟨.inl, .inl⟩
  | body p choice effect asks ran =>
      rw [apply_pc]
      split
      · rename_i same
        subst same
        exact ⟨fun down => .inl (Pc.down_body ran down),
          fun freeing => .inl (Pc.freeing_body ran freeing)⟩
      · exact ⟨.inl, .inl⟩

/-- One step starts one call. -/
theorem Apart.step
    {state next : SemState m n} {label : SemLabel n} (apart : Apart state)
    (disciplined : Disciplined state label)
    (taken : SemStep state label next) : Apart next := by
  intro id p q freeing down
  rcases (taken.calls id p).2 freeing with
    freeing | ⟨routine, started, freeing⟩ <;>
    rcases (taken.calls id q).1 down with down | ⟨other, begun, down⟩
  · exact apart id p q freeing down
  · exact disciplined.down other begun id down p freeing
  · exact disciplined.free routine started id freeing q down
  · have same : routine = other := Option.mem_unique started begun
    subst same
    generalize (routine.entry : Pc m n) = pc at freeing down
    cases pc <;> simp [Pc.freeing, Pc.down] at freeing down

/-- Callers who keep `sem_free` and `sem_down` on a slot apart meet the
condition. -/
theorem careful_of_disciplined
    {state : SemState m n}
    (reached : ((semSystem m n).guarded Disciplined).Reachable state) :
    ((semSystem m n).guarded Careful).Reachable state ∧ Apart state := by
  induction reached with
  | start initial =>
      refine ⟨.start initial, ?_⟩
      have outside : ∀ q, _ = Pc.outside := initial.2.2
      intro id p q freeing
      simp [outside, Pc.freeing] at freeing
  | step _ taken induction =>
      rcases induction with ⟨reached, apart⟩
      rcases taken with ⟨disciplined, taken⟩
      refine ⟨reached.step ⟨?_, taken⟩,
        apart.step disciplined (semStep_of_exec taken)⟩
      exact fun id frees q => apart id _ q (congrArg Pc.freeing frees.1)

/-! ## Two runs -/

/-- A step that meets the condition. -/
def carefulStep (state : SemState m n) (label : SemLabel n) :
    Option (SemState m n) :=
  if Careful state label then (semProgram m n).exec state label else none

theorem carefulStep_sound
    (state : SemState m n) (label : SemLabel n) (next : SemState m n)
    (taken : carefulStep state label = some next) :
    ((semSystem m n).guarded Careful).step state label next := by
  unfold carefulStep at taken
  split at taken
  · rename_i careful
    exact ⟨careful, taken⟩
  · cases taken

/--
The creator makes a semaphore of one unit, the user takes the unit and gives it
back, and the creator frees the semaphore.
-/
def freedUnit : SemState 1 2 :=
  (List.foldlM carefulStep booted
    ((creator, .call (.semCreate 1)) :: goOn creator 5 ++
      (user, .call (.semDown onlySlot)) :: goOn user 5 ++
      (user, .call (.semUp onlySlot)) :: goOn user 8 ++
      (creator, .call (.semFree onlySlot)) :: goOn creator 5)).get (by decide)

theorem freeLaw_freedUnit :
    freedUnit.pc 0 = .freeReturn 0 0 ∧ FreeLaw freedUnit :=
  ⟨by decide,
    freeLaw_of_careful
      (System.Reachable.of_run carefulStep_sound
        (.start starts_booted) (Option.some_get _).symm)⟩

/--
The creator makes a semaphore without units, the user sleeps in `sem_down`, and
the creator frees the semaphore.
-/
def freedAsleep : SemState 1 2 :=
  (List.foldlM (semProgram 1 2).exec booted
    ((creator, .call (.semCreate 0)) :: goOn creator 5 ++
      (user, .call (.semDown onlySlot)) :: goOn user 7 ++
      (creator, .call (.semFree onlySlot)) :: goOn creator 5)).get (by decide)

/-- `sem_free` returns 0 while a process sleeps in `sem_down`. -/
theorem free_leaves_sleeper :
    ¬ ∀ (m n : Nat) (state : SemState m n),
      (semSystem m n).Reachable state → FreeLaw state := by
  intro law
  have reached : (semSystem 1 2).Reachable freedAsleep :=
    reachable_booted.of_run (fun _ _ _ taken => taken)
      (Option.some_get _).symm
  exact (law 1 2 freedAsleep reached).empty 0 0 (.inr (by decide)) 1
    (by decide)

end OSCourse.Semaphore
