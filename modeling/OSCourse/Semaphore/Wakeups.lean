import OSCourse.Semaphore.Counting

/-!
# Sleepers and wake-ups

Between the test of the value in `sem_down` and the change to SLEEPING the lock
of the slot is released.  The process that falls asleep holds its own lock by
then, and the `wakeup` of a `sem_up` takes that lock while it still holds the
slot.  So nobody sleeps on a slot with a positive value unless a `wakeup` is on
its way to it.
-/

namespace OSCourse.Semaphore

open OSCourse.Library.LockProgram
open OSCourse.Library.TransitionSystem

variable {m n : Nat}

/-! ## Inside `sem_down` -/

/-- The slot of a `sem_down` that is past its used check. -/
def Pc.past : Pc m n → Option (Fin m)
  | .downTest id => some id
  | .sleepAcquire id => some id
  | .sleepRelease id => some id
  | .sleepMark id => some id
  | .sleepSched id => some id
  | .asleep id => some id
  | .sleepTidy id => some id
  | .downReacquire id => some id
  | .downDecrement id => some id
  | .downReturn id result => if result = 0 then some id else none
  | _ => none

/-- Process `q` sleeps on the slot, or has left it to do so. -/
def Dozing (shared : Shared m n) (id : Fin m) (q : Fin n) (pc : Pc m n) :
    Prop :=
  pc = .sleepMark id ∨ pc = .sleepSched id ∨
    (pc = .asleep id ∧ (shared.procs q).state = .sleeping)

/-- Process `q` has seen the value 0 and still holds the slot. -/
def Pc.Yields (id : Fin m) (pc : Pc m n) : Prop :=
  pc = .sleepAcquire id ∨ pc = .sleepRelease id

/-- The `wakeup` of a `sem_up` on the slot has yet to come to `q`. -/
def Pc.Reaches (id : Fin m) (q : Fin n) (pc : Pc m n) : Prop :=
  (∃ next : Nat, pc = .wakeup id next ∧ next ≤ q) ∨
    ∃ r : Fin n, pc = .wakeupLocked id r ∧ r ≤ q

/-- The value that `sem_create` is about to write. -/
def Pc.writesValue : Pc m n → Option (Fin m × Int)
  | .createValue initValue id => some (id, initValue)
  | _ => none

/-! ## One step -/

/-- A process falls asleep only where it leaves the slot. -/
theorem Pc.dozing_body
    {p : Fin n} {shared : Shared m n} {pc : Pc m n}
    {effect : Effect (Shared m n) (Lock m n) (Pc m n)} {id : Fin m} :
    pc.body p shared = some effect →
      Dozing effect.shared id p effect.pc →
        Dozing shared id p pc ∨ pc = .sleepRelease id := by
  fun_cases Pc.body p shared pc <;> rintro ⟨⟩ <;>
    grind [Dozing]

/-- No process puts another one to sleep. -/
theorem Pc.dozing_body_other
    {p q : Fin n} {shared : Shared m n} {pc other : Pc m n}
    {effect : Effect (Shared m n) (Lock m n) (Pc m n)} {id : Fin m}
    (distinct : q ≠ p) :
    pc.body p shared = some effect →
      Dozing effect.shared id q other → Dozing shared id q other := by
  fun_cases Pc.body p shared pc <;> rintro ⟨⟩ <;>
    grind [Dozing]

/-- A `wakeup` passes another entry only when it finds it awake. -/
theorem Pc.reaches_body
    {p q : Fin n} {shared : Shared m n} {pc : Pc m n}
    {effect : Effect (Shared m n) (Lock m n) (Pc m n)} {id : Fin m}
    (distinct : q ≠ p) (asks : pc.asks p shared = none)
    (ran : pc.body p shared = some effect) (reaches : pc.Reaches id q) :
    effect.pc.Reaches id q ∨
      (pc = .wakeupLocked id q ∧
        ((shared.procs q).chan = some id →
          (effect.shared.procs q).state ≠ .sleeping)) := by
  rcases reaches with ⟨next, rfl, le⟩ | ⟨r, rfl, le⟩
  · left
    simp only [Pc.body] at ran
    split at ran
    · rename_i inside
      have own : next = p := by
        simp only [Pc.asks, Option.map_eq_none_iff, entryAt, inside,
          dite_true, Option.filter_eq_none_iff] at asks
        have := asks ⟨next, inside⟩ rfl
        simpa [Fin.ext_iff] using this
      cases ran
      refine .inl ⟨next + 1, rfl, ?_⟩
      have apart : q.val ≠ p.val := fun same => distinct (Fin.ext same)
      omega
    · have := q.isLt
      omega
  · by_cases same : r = q
    · subst same
      right
      refine ⟨rfl, ?_⟩
      intro chan
      simp only [Pc.body, chan, and_true] at ran
      split at ran
      · cases ran
        simp [Shared.setProc]
      · rename_i awake
        cases ran
        exact awake
    · left
      have later : r + 1 ≤ q.val := by
        have apart : r.val ≠ q.val := fun equal => same (Fin.ext equal)
        have : r.val ≤ q.val := le
        omega
      simp only [Pc.body] at ran
      split at ran <;> cases ran <;> exact .inl ⟨r + 1, rfl, later⟩

/-- A `sem_down` passes its used check only on a slot in use. -/
theorem Pc.past_body
    {p : Fin n} {shared : Shared m n} {pc : Pc m n}
    {effect : Effect (Shared m n) (Lock m n) (Pc m n)} {id : Fin m} :
    pc.body p shared = some effect → effect.pc.past = some id →
      (pc.past = some id ∧ effect.shared.passed p = shared.passed p) ∨
        ((shared.sems id).used = true ∧
          effect.shared.passed p = effect.shared.creations id) := by
  fun_cases Pc.body p shared pc <;> rintro ⟨⟩ <;>
    grind [Pc.past]

theorem Pc.passed_body
    {p q : Fin n} {shared : Shared m n} {pc : Pc m n}
    {effect : Effect (Shared m n) (Lock m n) (Pc m n)} (distinct : q ≠ p) :
    pc.body p shared = some effect →
      effect.shared.passed q = shared.passed q := by
  fun_cases Pc.body p shared pc <;> rintro ⟨⟩ <;> grind

/-- A slot is taken only when it is not in use. -/
theorem Pc.creations_body
    {p : Fin n} {shared : Shared m n} {pc : Pc m n}
    {effect : Effect (Shared m n) (Lock m n) (Pc m n)} {id : Fin m}
    (used : (shared.sems id).used = true) :
    pc.body p shared = some effect →
      effect.shared.creations id = shared.creations id := by
  fun_cases Pc.body p shared pc <;> rintro ⟨⟩ <;> grind

/-- A process gives up the slot only after it has seen the value 0. -/
theorem Pc.yields_body
    {p : Fin n} {shared : Shared m n} {pc : Pc m n}
    {effect : Effect (Shared m n) (Lock m n) (Pc m n)} {id : Fin m} :
    pc.body p shared = some effect → effect.pc.Yields id →
      (effect.shared.sems id).value = 0 := by
  fun_cases Pc.body p shared pc <;> rintro ⟨⟩ <;>
    grind [Pc.Yields]

theorem Pc.decrement_body
    {p : Fin n} {shared : Shared m n} {pc : Pc m n}
    {effect : Effect (Shared m n) (Lock m n) (Pc m n)} {id : Fin m} :
    pc.body p shared = some effect → effect.pc = .downDecrement id →
      pc = .downTest id ∧ (shared.sems id).value ≠ 0 := by
  fun_cases Pc.body p shared pc <;> rintro ⟨⟩ <;> grind

/-- `sem_free` is on its way to return 0. -/
def Pc.Freed (id : Fin m) (pc : Pc m n) : Prop :=
  pc = .freeReleaseSem id 0 ∨ pc = .freeReturn id 0

theorem Pc.freed_body
    {p : Fin n} {shared : Shared m n} {pc : Pc m n}
    {effect : Effect (Shared m n) (Lock m n) (Pc m n)} {id : Fin m} :
    pc.body p shared = some effect → effect.pc.Freed id →
      (effect.shared.sems id).used = false ∨
        (pc.Freed id ∧ effect.shared.sems id = shared.sems id) := by
  fun_cases Pc.body p shared pc <;> rintro ⟨⟩ <;>
    grind [Pc.Freed]

/-- A process that sleeps has the slot as its channel. -/
def Pc.Sleeps (id : Fin m) (pc : Pc m n) : Prop :=
  pc = .sleepSched id ∨ pc = .asleep id

theorem Pc.chan_body
    {p : Fin n} {shared : Shared m n} {pc : Pc m n}
    {effect : Effect (Shared m n) (Lock m n) (Pc m n)} {id : Fin m} :
    pc.body p shared = some effect → effect.pc.Sleeps id →
      (effect.shared.procs p).chan = some id ∨
        (pc.Sleeps id ∧ effect.shared.procs p = shared.procs p) := by
  fun_cases Pc.body p shared pc <;> rintro ⟨⟩ <;>
    grind [Pc.Sleeps]

theorem Pc.chan_body_other
    {p q : Fin n} {shared : Shared m n} {pc : Pc m n}
    {effect : Effect (Shared m n) (Lock m n) (Pc m n)} (distinct : q ≠ p) :
    pc.body p shared = some effect →
      (effect.shared.procs q).chan = (shared.procs q).chan := by
  fun_cases Pc.body p shared pc <;> rintro ⟨⟩ <;> grind

/-- What a step that changes no field does to the places of interest. -/
structure Bystander (shared : Shared m n) (p : Fin n) (pc pc' : Pc m n) :
    Prop where
  past : pc'.past = pc.past
  dozing : ∀ id, Dozing shared id p pc' → Dozing shared id p pc
  yields : ∀ id, pc'.Yields id → pc.Yields id
  reaches : ∀ id q, pc.Reaches id q → pc'.Reaches id q
  decrement : ∀ id, pc' ≠ .downDecrement id
  freed : ∀ id, ¬ pc'.Freed id
  sleeps : ∀ id, ¬ pc'.Sleeps id

theorem Advance.bystander
    {p : Fin n} {shared : Shared m n} {pc pc' : Pc m n}
    {move : Move Call Unit} (moves : Advance p shared pc move pc') :
    Bystander shared p pc pc' := by
  cases moves with
  | call routine idle =>
      subst idle
      have entry : Entry (routine.entry : Pc m n) := routine.isEntry
      generalize (routine.entry : Pc m n) = pc' at entry
      cases entry <;> constructor <;>
        simp [Pc.past, Dozing, Pc.Yields, Pc.Reaches, Pc.Freed, Pc.Sleeps]
  | acquire choice lock asks =>
      cases pc with
      | wakeup id next =>
          rcases Option.map_eq_some_iff.mp asks with ⟨q, found, rfl⟩
          have here := (filter_entryAt_eq_some.mp found).1
          constructor <;> grind [Pc.acquired, Pc.past, Dozing, Pc.Yields,
            Pc.Reaches, Pc.Freed, Pc.Sleeps]
      | kill pid next =>
          rcases Option.map_eq_some_iff.mp asks with ⟨q, -, rfl⟩
          constructor <;>
            simp [Pc.acquired, Pc.past, Dozing, Pc.Yields, Pc.Reaches,
              Pc.Freed, Pc.Sleeps]
      | asleep id =>
          constructor <;>
            simp [Pc.acquired, Pc.past, Dozing, Pc.Yields, Pc.Reaches,
              Pc.Freed, Pc.Sleeps]
      | _ =>
          cases asks <;> constructor <;>
            simp [Pc.acquired, Pc.past, Dozing, Pc.Yields, Pc.Reaches,
              Pc.Freed, Pc.Sleeps]

instance (shared : Shared m n) (id : Fin m) (q : Fin n) (pc : Pc m n) :
    Decidable (Dozing shared id q pc) :=
  inferInstanceAs (Decidable (_ ∨ _ ∨ _))

instance (id : Fin m) (pc : Pc m n) : Decidable (pc.Yields id) :=
  inferInstanceAs (Decidable (_ ∨ _))

theorem Pc.sem_of_reaches
    {pc : Pc m n} {id : Fin m} {q : Fin n} (p : Fin n)
    (reaches : pc.Reaches id q) :
    Lock.sem id ∈ pc.locks p := by
  rcases reaches with ⟨next, rfl, -⟩ | ⟨r, rfl, -⟩ <;> simp [Pc.locks]

theorem Pc.sem_of_yields
    {pc : Pc m n} {id : Fin m} (p : Fin n) (yields : pc.Yields id) :
    Lock.sem id ∈ pc.locks p := by
  rcases yields with rfl | rfl <;> simp [Pc.locks]

/-- A process on its way to sleep holds its own lock. -/
theorem asleep_of_locked
    {state : SemState m n} (owned : Owned state) {id : Fin m} {p q : Fin n}
    (locked : state.pc p = .wakeupLocked id q)
    (dozing : Dozing state.shared id q (state.pc q)) :
    state.pc q = .asleep id := by
  have apart : .proc q ∉ (state.pc q).locks q := by
    intro held
    have same : q = p := owned.unique held (by simp [locked, Pc.locks])
    subst same
    simp [Dozing, locked] at dozing
  rcases dozing with mark | sched | ⟨asleep, -⟩
  · exact absurd (by simp [mark, Pc.locks]) apart
  · exact absurd (by simp [sched, Pc.locks]) apart
  · exact asleep

/-! ## Sleepers -/

/-- Only a process that is SLEEPING or about to be is in `sleep`. -/
theorem Pc.sleeping_body
    {p : Fin n} {shared : Shared m n} {pc : Pc m n}
    {effect : Effect (Shared m n) (Lock m n) (Pc m n)} :
    pc.body p shared = some effect →
      (effect.shared.procs p).state = .sleeping →
        (∃ id, effect.pc.Sleeps id) ∨
          ((shared.procs p).state = .sleeping ∧ ∀ id, ¬ pc.Sleeps id) := by
  fun_cases Pc.body p shared pc <;> rintro ⟨⟩ <;>
    simp only [Pc.Sleeps] <;> grind

theorem Pc.sleeping_body_other
    {p q : Fin n} {shared : Shared m n} {pc : Pc m n}
    {effect : Effect (Shared m n) (Lock m n) (Pc m n)} (distinct : q ≠ p) :
    pc.body p shared = some effect →
      (effect.shared.procs q).state = .sleeping →
        (shared.procs q).state = .sleeping := by
  fun_cases Pc.body p shared pc <;> rintro ⟨⟩ <;> grind

/-- A process leaves `sleep` without a lock only when it is RUNNABLE. -/
theorem Advance.runnable_of_sleeps
    {p : Fin n} {shared : Shared m n} {pc pc' : Pc m n}
    {move : Move Call Unit} {id : Fin m}
    (moves : Advance p shared pc move pc') (sleeps : pc.Sleeps id) :
    (shared.procs p).state = .runnable := by
  cases moves with
  | call routine idle =>
      subst idle
      simp [Pc.Sleeps] at sleeps
  | acquire choice lock asks =>
      rcases sleeps with rfl | rfl
      · cases asks
      · simp only [Pc.asks] at asks
        split at asks
        · assumption
        · cases asks

/-- A SLEEPING process is in `sleep`, on the channel of its slot. -/
structure Parked (state : SemState m n) : Prop where
  inside : ∀ q, (state.shared.procs q).state = .sleeping →
    ∃ id, (state.pc q).Sleeps id
  chan : ∀ id q, (state.pc q).Sleeps id →
    (state.shared.procs q).chan = some id

section Body

variable {state : SemState m n} {p : Fin n}
variable {effect : Effect (Shared m n) (Lock m n) (Pc m n)}

theorem apply_pc (q : Fin n) :
    (Program.apply state p effect).pc q =
      if q = p then effect.pc else state.pc q :=
  Function.update_apply _ _ _ _

theorem Parked.advance
    {move : Move Call Unit} {pc : Pc m n}
    {owner : Lock m n → Option (Fin n)} (parked : Parked state)
    (moves : Advance p state.shared (state.pc p) move pc) :
    Parked ⟨state.shared, owner, Function.update state.pc p pc⟩ := by
  have bystander := moves.bystander
  constructor
  · intro q sleeping
    rcases parked.inside q sleeping with ⟨id, sleeps⟩
    refine ⟨id, ?_⟩
    by_cases same : q = p
    · subst same
      have runnable := moves.runnable_of_sleeps sleeps
      simp [runnable] at sleeping
    · simpa only [Function.update_of_ne same] using sleeps
  · intro id q sleeps
    by_cases same : q = p
    · subst same
      exact absurd (by simpa using sleeps) (bystander.sleeps id)
    · exact parked.chan id q
        (by simpa only [Function.update_of_ne same] using sleeps)

theorem Parked.apply
    (parked : Parked state)
    (ran : (state.pc p).body p state.shared = some effect) :
    Parked (Program.apply state p effect) := by
  constructor
  · intro q sleeping
    rw [apply_pc]
    split
    · rename_i same
      subst same
      rcases Pc.sleeping_body ran sleeping with inside | ⟨before, awake⟩
      · exact inside
      · rcases parked.inside q before with ⟨id, sleeps⟩
        exact absurd sleeps (awake id)
    · rename_i distinct
      exact parked.inside q (Pc.sleeping_body_other distinct ran sleeping)
  · intro id q sleeps
    rw [apply_pc] at sleeps
    split at sleeps
    · rename_i same
      subst same
      rcases Pc.chan_body ran sleeps with now | ⟨before, unchanged⟩
      · exact now
      · exact unchanged ▸ parked.chan id q before
    · rename_i distinct
      exact (Pc.chan_body_other distinct ran).trans (parked.chan id q sleeps)

theorem parked_of_reachable
    (reached : (semSystem m n).Reachable state) : Parked state := by
  refine reached.invariant Parked ?_ ?_
  · rintro state ⟨legal, -, outside⟩
    have idle : ∀ q, state.pc q = .outside := outside
    constructor
    · intro q sleeping
      simp [legal.running] at sleeping
    · intro id q sleeps
      simp [idle, Pc.Sleeps] at sleeps
  · intro state label next _ parked taken
    cases semStep_of_exec taken with
    | advance p move pc owner moves => exact parked.advance moves
    | body p choice effect asks ran => exact parked.apply ran

/-- A process that sleeps on the slot dozes there. -/
theorem Parked.dozing
    (parked : Parked state) {id : Fin m} {q : Fin n}
    (sleeping : (state.shared.procs q).state = .sleeping)
    (chan : (state.shared.procs q).chan = some id) :
    Dozing state.shared id q (state.pc q) := by
  rcases parked.inside q sleeping with ⟨slot, sleeps⟩
  have same : slot = id := by
    have known := parked.chan slot q sleeps
    rw [chan, Option.some.injEq] at known
    exact known.symm
  subst same
  rcases sleeps with sched | asleep
  · exact .inr (.inl sched)
  · exact .inr (.inr ⟨asleep, sleeping⟩)

/-- A process dozes after a step if it dozed before, or leaves the slot. -/
theorem dozing_of_apply
    (ran : (state.pc p).body p state.shared = some effect)
    {id : Fin m} {q : Fin n}
    (dozing : Dozing effect.shared id q
      ((Program.apply state p effect).pc q)) :
    Dozing state.shared id q (state.pc q) ∨
      (q = p ∧ state.pc p = .sleepRelease id) := by
  rw [apply_pc] at dozing
  split at dozing
  · rename_i same
    subst same
    rcases Pc.dozing_body ran dozing with before | leaves
    · exact .inl before
    · exact .inr ⟨rfl, leaves⟩
  · rename_i distinct
    exact .inl (Pc.dozing_body_other distinct ran dozing)

/-! ## Wake-ups on their way -/

/-- A `wakeup` on its way either still comes to `q` or has woken it. -/
theorem reaches_apply
    (owned : Owned state) (parked : Parked state)
    (asks : (state.pc p).asks p state.shared = none)
    (ran : (state.pc p).body p state.shared = some effect)
    {id : Fin m} {q u : Fin n}
    (dozing : Dozing effect.shared id q
      ((Program.apply state p effect).pc q))
    (reaches : (state.pc u).Reaches id q) :
    ∃ u, ((Program.apply state p effect).pc u).Reaches id q := by
  by_cases other : u = p
  · subst other
    have distinct : q ≠ u := by
      rintro rfl
      rcases dozing_of_apply ran dozing with before | ⟨-, leaves⟩
      · rcases reaches with ⟨next, here, -⟩ | ⟨r, here, -⟩ <;>
          simp [Dozing, here] at before
      · rcases reaches with ⟨next, here, -⟩ | ⟨r, here, -⟩ <;>
          simp [here] at leaves
    rcases Pc.reaches_body distinct asks ran reaches with still | ⟨here, woken⟩
    · exact ⟨u, by rwa [apply_pc, if_pos rfl]⟩
    · rw [apply_pc, if_neg distinct] at dozing
      have asleep := asleep_of_locked owned here
        (Pc.dozing_body_other distinct ran dozing)
      have sleeping : (effect.shared.procs q).state = .sleeping := by
        simpa [Dozing, asleep] using dozing
      exact absurd sleeping (woken (parked.chan id q (.inr asleep)))
  · exact ⟨u, by rwa [apply_pc, if_neg other]⟩

/--
While the slot has units nobody sleeps on it unless a `wakeup` is on its way to
it, and nobody gives the slot up to sleep.
-/
structure Attended (id : Fin m) (state : SemState m n) : Prop where
  wakes : ∀ q, 0 < (state.shared.sems id).value →
    Dozing state.shared id q (state.pc q) → ∃ u, (state.pc u).Reaches id q
  yields : ∀ q, (state.pc q).Yields id → ¬ 0 < (state.shared.sems id).value

theorem Attended.advance
    {id : Fin m} {move : Move Call Unit} {pc : Pc m n}
    {owner : Lock m n → Option (Fin n)} (attended : Attended id state)
    (moves : Advance p state.shared (state.pc p) move pc) :
    Attended id ⟨state.shared, owner, Function.update state.pc p pc⟩ := by
  have bystander := moves.bystander
  constructor
  · intro q value dozing
    have before : Dozing state.shared id q (state.pc q) := by
      by_cases same : q = p
      · subst same
        exact bystander.dozing id (by simpa using dozing)
      · simpa only [Function.update_of_ne same] using dozing
    rcases attended.wakes q value before with ⟨u, reaches⟩
    refine ⟨u, ?_⟩
    by_cases same : u = p
    · subst same
      simpa using bystander.reaches id q reaches
    · simpa only [Function.update_of_ne same] using reaches
  · intro q yields
    by_cases same : q = p
    · subst same
      exact attended.yields q (bystander.yields id (by simpa using yields))
    · exact attended.yields q
        (by simpa only [Function.update_of_ne same] using yields)

theorem Attended.wakes_apply
    {id : Fin m} (attended : Attended id state)
    (owned : Owned state) (parked : Parked state)
    (written : ∀ w, state.pc p = .createValue w id → 0 < w →
      ∀ q, ¬ Dozing state.shared id q (state.pc q))
    (lowered : state.pc p = .downDecrement id →
      0 < (state.shared.sems id).value - 1 →
        ∀ q, ¬ Dozing state.shared id q (state.pc q))
    (asks : (state.pc p).asks p state.shared = none)
    (ran : (state.pc p).body p state.shared = some effect)
    (q : Fin n) (value : 0 < (effect.shared.sems id).value)
    (dozing : Dozing effect.shared id q
      ((Program.apply state p effect).pc q)) :
    ∃ u, ((Program.apply state p effect).pc u).Reaches id q := by
  rcases dozing_of_apply ran dozing with before | ⟨-, leaves⟩
  · have follow : 0 < (state.shared.sems id).value →
        ∃ u, ((Program.apply state p effect).pc u).Reaches id q := by
      intro units
      rcases attended.wakes q units before with ⟨u, reaches⟩
      exact reaches_apply owned parked asks ran dozing reaches
    cases Pc.slotStep id ran with
    | keep same _ _ _ _ _ => exact follow (by rwa [same] at value)
    | take w unused here after goto => exact follow (by rwa [after] at value)
    | value w here after goto =>
        rw [after] at value
        exact absurd before (written w here value q)
    | init w here after goto => exact follow (by rwa [after] at value)
    | free equal here after goto =>
        rw [after] at value
        exact absurd value (lt_irrefl 0)
    | down here after goto =>
        rw [after] at value
        exact absurd before (lowered here value q)
    | up here after goto =>
        exact ⟨p, by
          rw [apply_pc, if_pos rfl, goto]
          exact .inl ⟨0, rfl, Nat.zero_le _⟩⟩
  · have still := attended.yields p (.inr leaves)
    simp only [leaves, Pc.body, Option.some.injEq] at ran
    rw [← ran] at value
    exact absurd value still

theorem Attended.yields_apply
    {id : Fin m} (attended : Attended id state)
    (owned : Owned state)
    (written : ∀ w, state.pc p = .createValue w id → 0 < w →
      ∀ q, ¬ (state.pc q).Yields id)
    (ran : (state.pc p).body p state.shared = some effect)
    (q : Fin n)
    (yields : ((Program.apply state p effect).pc q).Yields id) :
    ¬ 0 < (effect.shared.sems id).value := by
  rw [apply_pc] at yields
  split at yields
  · rw [Pc.yields_body ran yields]
    exact lt_irrefl 0
  · rename_i distinct
    have still := attended.yields q yields
    have alone : .sem id ∉ (state.pc p).locks p :=
      fun held => distinct (owned.unique (Pc.sem_of_yields q yields) held)
    cases Pc.slotStep id ran with
    | keep same _ _ _ _ _ => rwa [same]
    | take w unused here after goto => rwa [after]
    | value w here after goto =>
        rw [after]
        exact fun units => written w here units q yields
    | init w here after goto => rwa [after]
    | free equal here after goto => simp [after]
    | down here after goto => exact absurd (by simp [here, Pc.locks]) alone
    | up here after goto => exact absurd (by simp [here, Pc.locks]) alone

/-- Nobody sleeps on a slot with units when its holder is not in `wakeup`. -/
theorem Attended.not_dozing
    {id : Fin m} (attended : Attended id state)
    (quiet : ∀ u, .sem id ∈ (state.pc u).locks u →
      ∀ q, ¬ (state.pc u).Reaches id q)
    (value : 0 < (state.shared.sems id).value) (q : Fin n) :
    ¬ Dozing state.shared id q (state.pc q) := by
  intro dozing
  rcases attended.wakes q value dozing with ⟨u, reaches⟩
  exact quiet u (Pc.sem_of_reaches u reaches) q reaches

/-- A process that lowers the value is no `wakeup`. -/
theorem Attended.lowered
    {id : Fin m} (attended : Attended id state) (owned : Owned state)
    (here : state.pc p = .downDecrement id)
    (value : 0 < (state.shared.sems id).value - 1) (q : Fin n) :
    ¬ Dozing state.shared id q (state.pc q) := by
  refine attended.not_dozing ?_ (by omega) q
  intro u held r reaches
  have same : u = p := owned.unique held (by simp [here, Pc.locks])
  simp [same, here, Pc.Reaches] at reaches

/-- A step keeps the slot attended unless it writes a value over a sleeper. -/
theorem Attended.step
    {id : Fin m} {next : SemState m n} {label : SemLabel n}
    (attended : Attended id state) (owned : Owned state)
    (parked : Parked state)
    (written : ∀ w, state.pc label.1 = .createValue w id → 0 < w →
      ∀ q, ¬ (state.pc q).Yields id ∧
        ¬ Dozing state.shared id q (state.pc q))
    (taken : SemStep state label next) :
    Attended id next := by
  cases taken with
  | advance p move pc owner moves => exact attended.advance moves
  | body p choice effect asks ran =>
      constructor
      · exact attended.wakes_apply owned parked
          (fun w here value q => (written w here value q).2)
          (attended.lowered owned) asks ran
      · exact attended.yields_apply owned
          (fun w here value q => (written w here value q).1) ran

end Body

/-! ## Between creation and free -/

/-- `sem_create` has made its assignments to the slot. -/
structure Created (id : Fin m) (state : SemState m n) : Prop where
  reached : (semSystem m n).Reachable state
  creator : ∃ p, state.pc p = .createReturn (some id)

/--
The condition on the creation: a slot that starts with units is slept on by
nobody from before, neither from before a `sem_free` nor from a `sem_down` that
guessed the id, and nobody has seen the value 0 and is about to sleep.
-/
def Unwaited (id : Fin m) (state : SemState m n) : Prop :=
  0 < (state.shared.sems id).value → ∀ q, ¬ (state.pc q).Yields id ∧
    ¬ Dozing state.shared id q (state.pc q)

instance (id : Fin m) (state : SemState m n) : Decidable (Unwaited id state) :=
  inferInstanceAs (Decidable (_ → _))

/-- The runs from the creation of a slot until it is freed. -/
def usage (id : Fin m) (first : SemState m n) :
    System (SemState m n) (SemLabel n) :=
  ((semSystem m n).startingAt first).guarded
    fun state label => ¬ Frees id state label ∧ Fits id state label

/-- The slot is in use, `sem_create` has left it, and it is attended. -/
structure InUse (id : Fin m) (state : SemState m n) : Prop where
  used : (state.shared.sems id).used = true
  assigned : ∀ q w, state.pc q ≠ .createValue w id
  attended : Attended id state

theorem Created.inUse
    {id : Fin m} {first : SemState m n} (created : Created id first)
    (unwaited : Unwaited id first) :
    InUse id first := by
  rcases created.creator with ⟨p, returning⟩
  have creating : (first.pc p).creates = some id := by rw [returning]; rfl
  have owned := owned_of_reachable created.reached
  constructor
  · exact used_of_creates created.reached creating
  · intro q w writing
    have same : q = p := owned.unique (by simp [writing, Pc.locks])
      (Pc.array_of_creates p creating)
    rw [same, returning] at writing
    cases writing
  · constructor
    · exact fun q units dozing => absurd dozing (unwaited units q).2
    · exact fun q yields units => (unwaited units q).1 yields

theorem InUse.step
    {id : Fin m} {state next : SemState m n} {label : SemLabel n}
    (inUse : InUse id state) (owned : Owned state) (parked : Parked state)
    (kept : ¬ Frees id state label) (taken : SemStep state label next) :
    InUse id next := by
  have attended := inUse.attended.step owned parked
    (fun w writing => absurd writing (inUse.assigned _ w)) taken
  cases taken with
  | advance p move pc owner moves =>
      refine ⟨inUse.used, ?_, attended⟩
      intro q w writing
      by_cases same : q = p
      · subst same
        have after := (moves.harmless.writes id).2
        exact after (.inl ⟨w, by simpa using writing⟩)
      · exact inUse.assigned q w
          (by simpa only [Function.update_of_ne same] using writing)
  | body p choice effect asks ran =>
      have step := Pc.slotStep id ran
      refine ⟨?_, ?_, attended⟩
      · cases step with
        | free equal before after goto => exact absurd ⟨before, equal⟩ kept
        | keep same _ _ _ _ _ => exact same ▸ inUse.used
        | take w unused before after goto => simp [inUse.used] at unused
        | value w before after goto => exact absurd before (inUse.assigned p w)
        | init w before after goto => simp [Program.apply, after, inUse.used]
        | down before after goto => simp [Program.apply, after, inUse.used]
        | up before after goto => simp [Program.apply, after, inUse.used]
      · intro q w writing
        rw [apply_pc] at writing
        split at writing
        · cases step with
          | keep _ _ _ goto _ _ => exact (goto w).1 writing
          | take w unused before after goto => simp [inUse.used] at unused
          | value w before after goto => simp [goto] at writing
          | init w before after goto => simp [goto] at writing
          | free equal before after goto => simp [goto] at writing
          | down before after goto => simp [goto] at writing
          | up before after goto => simp [goto] at writing
        · exact inUse.assigned q w writing

theorem inUse_of_reachable
    {id : Fin m} {first state : SemState m n} (created : Created id first)
    (unwaited : Unwaited id first)
    (reached : (usage id first).Reachable state) :
    InUse id state := by
  refine reached.invariant (InUse id) ?_ ?_
  · rintro state rfl
    exact created.inUse unwaited
  · rintro state label next before inUse ⟨⟨kept, -⟩, taken⟩
    have everywhere := created.reached.of_startingAt before.of_guarded
    exact inUse.step (owned_of_reachable everywhere)
      (parked_of_reachable everywhere) kept (semStep_of_exec taken)

/-- No process is SLEEPING on the channel of the slot. -/
def NoneAsleep (id : Fin m) (state : SemState m n) : Prop :=
  ∀ q, ¬ ((state.shared.procs q).state = .sleeping ∧
    (state.shared.procs q).chan = some id)

/-- The process is past its test of the value on the way to sleep. -/
def Pc.FallsAsleep (id : Fin m) (pc : Pc m n) : Prop :=
  pc = .sleepAcquire id ∨ pc = .sleepRelease id ∨ pc = .sleepMark id ∨
    pc = .sleepSched id

/-- A slot that nobody holds and that has units is slept on by nobody. -/
theorem Attended.noneAsleep
    {id : Fin m} {state : SemState m n}
    (attended : Attended id state) (owned : Owned state)
    (parked : Parked state) (free : state.owner (.sem id) = none)
    (positive : 0 < (state.shared.sems id).value) :
    NoneAsleep id state ∧ ∀ q, ¬ (state.pc q).FallsAsleep id := by
  have unheld : ∀ u, .sem id ∉ (state.pc u).locks u := by
    intro u held
    rw [← owned.owner, free] at held
    cases held
  have awake := attended.not_dozing
    (fun u held => absurd held (unheld u)) positive
  constructor
  · rintro q ⟨sleeping, chan⟩
    exact awake q (parked.dozing sleeping chan)
  · rintro q (acquire | release | mark | sched)
    · exact unheld q (by simp [acquire, Pc.locks])
    · exact unheld q (by simp [release, Pc.locks])
    · exact awake q (.inl mark)
    · exact awake q (.inr (.inl sched))

/--
Whenever the lock of the slot is free and its value is positive, no process is
SLEEPING on it and none is past its test of the value on the way to sleep.
-/
def WakeupLaw (id : Fin m) (state : SemState m n) : Prop :=
  state.owner (.sem id) = none → 0 < (state.shared.sems id).value →
    NoneAsleep id state ∧ ∀ q, ¬ (state.pc q).FallsAsleep id

/--
From the creation of a slot that nobody from before waits for until it is freed,
no wake-up is lost.
-/
theorem no_lost_wakeup
    {id : Fin m} {first state : SemState m n}
    (created : Created id first)
    (unwaited : Unwaited id first)
    (reached : (usage id first).Reachable state) :
    WakeupLaw id state := by
  intro free positive
  have everywhere := created.reached.of_startingAt reached.of_guarded
  exact (inUse_of_reachable created unwaited reached).attended.noneAsleep
    (owned_of_reachable everywhere) (parked_of_reachable everywhere)
    free positive

/-- The condition is exact for a slot that nobody holds at its creation. -/
theorem unwaited_of_wakeupLaw
    {id : Fin m} {first : SemState m n} (created : Created id first)
    (free : first.owner (.sem id) = none) (law : WakeupLaw id first) :
    Unwaited id first := by
  intro positive q
  rcases law free positive with ⟨awake, none⟩
  constructor
  · rintro (acquire | release)
    · exact none q (.inl acquire)
    · exact none q (.inr (.inl release))
  · rintro (mark | sched | ⟨asleep, sleeping⟩)
    · exact none q (.inr (.inr (.inl mark)))
    · exact none q (.inr (.inr (.inr sched)))
    · exact awake q ⟨sleeping,
        (parked_of_reachable created.reached).chan id q (.inr asleep)⟩

/-- A process that goes on with its call for some steps. -/
def goOn (p : Fin n) (steps : Nat) : List (SemLabel n) :=
  List.replicate steps (p, .go ())

/-- The creator has made a semaphore without units. -/
def noUnit : SemState 1 2 :=
  (List.foldlM (semProgram 1 2).exec booted
    ((creator, .call (.semCreate 0)) :: goOn creator 4)).get (by decide)

/-- A step of a run of the slot. -/
def usageStep (id : Fin m) (state : SemState m n) (label : SemLabel n) :
    Option (SemState m n) :=
  if ¬ Frees id state label ∧ Fits id state label then
    (semProgram m n).exec state label
  else
    none

theorem usageStep_sound
    {id : Fin m} (first state : SemState m n) (label : SemLabel n)
    (next : SemState m n) (taken : usageStep id state label = some next) :
    (usage id first).step state label next := by
  unfold usageStep at taken
  split at taken
  · rename_i kept
    exact ⟨kept, taken⟩
  · cases taken

/--
The user comes to sleep in `sem_down`, and the creator gives a unit while the
user holds its own lock and not yet sleeps.
-/
def unitGiven : SemState 1 2 :=
  (List.foldlM (usageStep onlySlot) noUnit
    (goOn creator 1 ++ (user, .call (.semDown onlySlot)) :: goOn user 5 ++
      (creator, .call (.semUp onlySlot)) :: goOn creator 4 ++ goOn user 2 ++
      goOn creator 4)).get (by decide)

theorem no_lost_wakeup_unitGiven :
    (unitGiven.shared.sems 0).value = 1 ∧ unitGiven.pc 1 = .asleep 0 ∧
      unitGiven.owner (.sem 0) = none ∧ WakeupLaw 0 unitGiven := by
  have created : Created 0 noUnit :=
    { reached := reachable_booted.of_run (fun _ _ _ taken => taken)
        (Option.some_get _).symm
      creator := ⟨0, by decide⟩ }
  have reached : (usage 0 noUnit).Reachable unitGiven :=
    System.Reachable.of_run (usageStep_sound noUnit) (.start rfl)
      (Option.some_get _).symm
  exact ⟨by decide, by decide, by decide,
    no_lost_wakeup created (by decide) reached⟩

/-! ## A sleeper from before -/

/--
The user sleeps on a semaphore without units.  The creator frees the semaphore
and creates one with a unit, which gets the same slot.
-/
def createdOverSleeper : SemState 1 2 :=
  (List.foldlM (semProgram 1 2).exec booted
    ((creator, .call (.semCreate 0)) :: goOn creator 5 ++
      (user, .call (.semDown onlySlot)) :: goOn user 7 ++
      (creator, .call (.semFree onlySlot)) :: goOn creator 6 ++
      (creator, .call (.semCreate 1)) :: goOn creator 4)).get (by decide)

/-- `sem_create` has returned the slot to the creator. -/
def unitUnseen : SemState 1 2 :=
  (List.foldlM (usageStep onlySlot) createdOverSleeper (goOn creator 1)).get
    (by decide)

/-- A process sleeps on a semaphore with a unit. -/
theorem sleeper_misses_unit :
    ¬ ∀ (m n : Nat) (id : Fin m) (first state : SemState m n),
      Created id first → (usage id first).Reachable state →
        WakeupLaw id state := by
  intro law
  have created : Created 0 createdOverSleeper :=
    { reached := reachable_booted.of_run (fun _ _ _ taken => taken)
        (Option.some_get _).symm
      creator := ⟨0, by decide⟩ }
  have reached : (usage 0 createdOverSleeper).Reachable unitUnseen :=
    System.Reachable.of_run (usageStep_sound createdOverSleeper) (.start rfl)
      (Option.some_get _).symm
  exact (law 1 2 0 createdOverSleeper unitUnseen created reached (by decide)
    (by decide)).1 1 (by decide)

end OSCourse.Semaphore
