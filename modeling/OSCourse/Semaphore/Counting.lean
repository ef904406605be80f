import Mathlib.Algebra.BigOperators.Fin
import Mathlib.Algebra.Order.BigOperators.Group.Finset
import OSCourse.Semaphore.Locks

/-!
# Counting

From the moment `sem_create` has taken a slot until `sem_free` gives it back,
the value of the slot is its initial value plus the completed `sem_up` calls
minus the completed `sem_down` calls, up to the call of the one process that
holds the lock of the slot.
-/

namespace OSCourse.Semaphore

open OSCourse.Library.LockProgram
open OSCourse.Library.TransitionSystem

variable {m n : Nat}

/-! ## Calls on a slot -/

/-- The slot that the argument of the call names. -/
def Pc.slot : Pc m n → Option (Fin m)
  | .freeAcquire id => some id
  | .freeCheck id => some id
  | .freeAcquireSem id => some id
  | .freeTest id => some id
  | .freeReleaseSem id _ => some id
  | .freeReturn id _ => some id
  | .downAcquire id => some id
  | .downCheck id => some id
  | .downTest id => some id
  | .sleepAcquire id => some id
  | .sleepRelease id => some id
  | .sleepMark id => some id
  | .sleepSched id => some id
  | .asleep id => some id
  | .sleepTidy id => some id
  | .downReacquire id => some id
  | .downDecrement id => some id
  | .downReturn id _ => some id
  | .upAcquire id => some id
  | .upCheck id => some id
  | .upIncrement id => some id
  | .wakeup id _ => some id
  | .wakeupLocked id _ => some id
  | .upReturn id _ => some id
  | _ => none

/-- The slot that `sem_create` has taken and not yet returned. -/
def Pc.creates : Pc m n → Option (Fin m)
  | .createValue _ id => some id
  | .createInit _ id => some id
  | .createReturn result => result
  | _ => none

/-- What a call has done to the value of its slot before it completes. -/
def Pc.pending (id : Fin m) : Pc m n → Int
  | .downReturn slot result => if slot = id ∧ result = 0 then -1 else 0
  | .wakeup slot _ => if slot = id then 1 else 0
  | .wakeupLocked slot _ => if slot = id then 1 else 0
  | .upReturn slot result => if slot = id ∧ result = 0 then 1 else 0
  | _ => 0

/-- What process `q` has done to the value of the slot. -/
def credit (shared : Shared m n) (id : Fin m) (q : Fin n) (pc : Pc m n) :
    Int :=
  shared.ups id q - shared.downs id q + pc.pending id

/-- What all processes have done to the value of the slot. -/
def balance (state : SemState m n) (id : Fin m) : Int :=
  ∑ q, credit state.shared id q (state.pc q)

/-- The process is about to write a field of the slot. -/
def Pc.Writes (id : Fin m) (pc : Pc m n) : Prop :=
  (∃ initValue, pc = .createValue initValue id) ∨
    (∃ initValue, pc = .createInit initValue id) ∨
    pc = .downDecrement id ∨ pc = .upIncrement id

/-! ## One step -/

/-- What a step of a process from `pc` to `pc'` does to the slot `id`. -/
inductive SlotStep (id : Fin m) (sem : Sem) (pc : Pc m n) (sem' : Sem)
    (pc' : Pc m n) : Prop where
  | keep (same : sem' = sem) (before : ¬ pc.Writes id)
      (created : pc'.creates = some id → pc.creates = some id)
      (goto : ∀ initValue,
        pc' ≠ .createValue initValue id ∧ pc' ≠ .createInit initValue id)
      (tested : pc' = .downDecrement id → sem.value ≠ 0)
      (raised : 0 < pc'.pending id → 0 < pc.pending id)
  | take (initValue : Int) (unused : sem.used = false)
      (before : pc = .createScan initValue id)
      (after : sem' = { sem with used := true })
      (goto : pc' = .createValue initValue id)
  | value (initValue : Int)
      (before : pc = .createValue initValue id)
      (after : sem' = { sem with value := initValue })
      (goto : pc' = .createInit initValue id)
  | init (initValue : Int)
      (before : pc = .createInit initValue id)
      (after : sem' = { sem with initValue := initValue })
      (goto : pc' = .createReturn (some id))
  | free (equal : sem.value = sem.initValue)
      (before : pc = .freeTest id)
      (after : sem' = ⟨0, 0, false⟩)
      (goto : pc' = .freeReleaseSem id 0)
  | down
      (before : pc = .downDecrement id)
      (after : sem' = { sem with value := sem.value - 1 })
      (goto : pc' = .downReturn id 0)
  | up
      (before : pc = .upIncrement id)
      (after : sem' = { sem with value := sem.value + 1 })
      (goto : pc' = .wakeup id 0)

/-- A step that writes the slot `slot` only. -/
theorem SlotStep.of_setSem
    {shared : Shared m n} {pc pc' : Pc m n} {slot : Fin m} {sem : Sem}
    (written : SlotStep slot (shared.sems slot) pc sem pc') (id : Fin m)
    (others : id ≠ slot →
      SlotStep id (shared.sems id) pc (shared.sems id) pc') :
    SlotStep id (shared.sems id) pc ((shared.setSem slot sem).sems id)
      pc' := by
  by_cases same : id = slot
  · subst same
    simpa only [Shared.setSem, Function.update_self] using written
  · simpa only [Shared.setSem, Function.update_of_ne same] using others same

theorem Pc.slotStep
    {p : Fin n} {shared : Shared m n} {pc : Pc m n}
    {effect : Effect (Shared m n) (Lock m n) (Pc m n)} (id : Fin m) :
    pc.body p shared = some effect →
      SlotStep id (shared.sems id) pc (effect.shared.sems id)
        effect.pc := by
  fun_cases Pc.body p shared pc <;> rintro ⟨⟩
  all_goals first
    | exact .keep rfl (by simp [Pc.Writes]) (by simp [Pc.creates])
        (by simp) (by grind) (by simp [Pc.pending])
    | refine SlotStep.of_setSem ?_ id fun other =>
        .keep rfl (by simp [Pc.Writes, Ne.symm other])
          (by simp [Pc.creates, Ne.symm other]) (by simp [Ne.symm other])
          (by simp) (by simp [Pc.pending, Ne.symm other])
  · rename_i unused
    exact .take _ (by simpa using unused) rfl rfl rfl
  · exact .value _ rfl rfl rfl
  · exact .init _ rfl rfl rfl
  · rename_i equal
    exact .free equal rfl rfl rfl
  · exact .down rfl rfl rfl
  · exact .up rfl rfl rfl

/-- Only a free ends the use of a slot. -/
theorem SlotStep.used
    {id : Fin m} {sem sem' : Sem} {pc pc' : Pc m n}
    (step : SlotStep id sem pc sem' pc') (used : sem.used = true)
    (notFreed : pc ≠ .freeTest id) :
    sem'.used = true := by
  cases step with
  | keep same _ _ _ _ _ => rw [same, used]
  | take w unused before after goto => rw [after]
  | value w before after goto => rw [after, used]
  | init w before after goto => rw [after, used]
  | free equal before after goto => exact absurd before notFreed
  | down before after goto => rw [after, used]
  | up before after goto => rw [after, used]

/-- `sem_create` comes to a slot by taking it. -/
theorem SlotStep.creates
    {id : Fin m} {sem sem' : Sem} {pc pc' : Pc m n}
    (step : SlotStep id sem pc sem' pc') (creates : pc'.creates = some id) :
    pc.creates = some id ∨ (sem.used = false ∧ sem'.used = true) := by
  cases step with
  | keep _ _ created _ _ _ => exact .inl (created creates)
  | take w unused before after goto => exact .inr ⟨unused, by rw [after]⟩
  | value w before after goto => exact .inl (by rw [before]; rfl)
  | init w before after goto => exact .inl (by rw [before]; rfl)
  | free equal before after goto =>
      rw [goto] at creates
      cases creates
  | down before after goto =>
      rw [goto] at creates
      cases creates
  | up before after goto =>
      rw [goto] at creates
      cases creates

theorem count_apply (counts : Fin m → Fin n → Nat) (slot id : Fin m)
    (p q : Fin n) :
    count counts slot p id q =
      counts id q + if slot = id ∧ q = p then 1 else 0 := by
  unfold count
  by_cases sameSlot : slot = id
  · subst sameSlot
    by_cases same : q = p
    · subst same
      simp
    · simp [same]
  · simp [Function.update_of_ne (Ne.symm sameSlot), sameSlot]

/-- A process changes its own credit by what it does to the value. -/
theorem Pc.credit_body
    {p : Fin n} {shared : Shared m n} {pc : Pc m n}
    {effect : Effect (Shared m n) (Lock m n) (Pc m n)} (id : Fin m) :
    pc.body p shared = some effect →
      credit effect.shared id p effect.pc =
        credit shared id p pc +
          (if pc = .upIncrement id then 1
            else if pc = .downDecrement id then -1 else 0) := by
  fun_cases Pc.body p shared pc <;> rintro ⟨⟩ <;>
    grind [credit, Pc.pending, count_apply]

/-- A process changes no count of another process. -/
theorem Pc.counts_body
    {p q : Fin n} {shared : Shared m n} {pc : Pc m n}
    {effect : Effect (Shared m n) (Lock m n) (Pc m n)} (id : Fin m)
    (other : q ≠ p) :
    pc.body p shared = some effect →
      effect.shared.ups id q = shared.ups id q ∧
        effect.shared.downs id q = shared.downs id q := by
  fun_cases Pc.body p shared pc <;> rintro ⟨⟩ <;>
    grind [count_apply]

/-- A step changes the balance by what it changes the credit of its process. -/
theorem balance_apply
    {state : SemState m n} {p : Fin n}
    {effect : Effect (Shared m n) (Lock m n) (Pc m n)} (id : Fin m)
    (ran : (state.pc p).body p state.shared = some effect) :
    balance (Program.apply state p effect) id =
      balance state id +
        (if state.pc p = .upIncrement id then 1
          else if state.pc p = .downDecrement id then -1 else 0) := by
  unfold balance
  rw [← Finset.add_sum_erase _ _ (Finset.mem_univ p),
    ← Finset.add_sum_erase _ (fun q => credit state.shared id q (state.pc q))
      (Finset.mem_univ p)]
  have others : ∑ q ∈ Finset.univ.erase p,
      credit (Program.apply state p effect).shared id q
        ((Program.apply state p effect).pc q) =
      ∑ q ∈ Finset.univ.erase p, credit state.shared id q (state.pc q) := by
    apply Finset.sum_congr rfl
    intro q member
    have other : q ≠ p := Finset.ne_of_mem_erase member
    rcases Pc.counts_body id other ran with ⟨ups, downs⟩
    simp only [Program.apply, credit, Function.update_of_ne other, ups, downs]
  rw [others]
  have mine := Pc.credit_body id ran
  simp only [Program.apply, Function.update_self]
  omega

/-- A step that changes no field and no count keeps the balance. -/
theorem balance_move
    {state : SemState m n} {p : Fin n} {pc : Pc m n} (id : Fin m)
    (same : pc.pending id = (state.pc p).pending id)
    (owner : Lock m n → Option (Fin n)) :
    balance ⟨state.shared, owner, Function.update state.pc p pc⟩ id =
      balance state id := by
  unfold balance
  apply Finset.sum_congr rfl
  intro q _
  by_cases equal : q = p
  · subst equal
    simp [credit, same]
  · simp [Function.update_of_ne equal]

/-- A step that changes no field is no write, and stays in the call. -/
structure Harmless (move : Move Call Unit) (pc pc' : Pc m n) : Prop where
  slot : pc'.slot = pc.slot ∨
    ∃ routine : Call, move = .call routine ∧ pc' = routine.entry
  creates : pc.creates = none ∧ pc'.creates = none
  pending : ∀ id, pc'.pending id = pc.pending id
  writes : ∀ id, ¬ pc.Writes id ∧ ¬ pc'.Writes id

theorem Advance.harmless
    {p : Fin n} {shared : Shared m n} {pc pc' : Pc m n}
    {move : Move Call Unit} (moves : Advance p shared pc move pc') :
    Harmless move pc pc' := by
  cases moves with
  | call routine idle =>
      subst idle
      have entry : Entry (routine.entry : Pc m n) := routine.isEntry
      refine ⟨.inr ⟨routine, rfl, rfl⟩, ?_, ?_, ?_⟩ <;>
        generalize (routine.entry : Pc m n) = pc' at entry <;>
        cases entry <;> simp [Pc.creates, Pc.pending, Pc.Writes]
  | acquire choice lock asks =>
      cases pc with
      | wakeup id next =>
          rcases Option.map_eq_some_iff.mp asks with ⟨q, -, rfl⟩
          constructor <;>
            simp [Pc.acquired, Pc.slot, Pc.creates, Pc.pending, Pc.Writes]
      | kill pid next =>
          rcases Option.map_eq_some_iff.mp asks with ⟨q, -, rfl⟩
          constructor <;>
            simp [Pc.acquired, Pc.slot, Pc.creates, Pc.pending, Pc.Writes]
      | asleep id =>
          constructor <;>
            simp [Pc.acquired, Pc.slot, Pc.creates, Pc.pending, Pc.Writes]
      | _ =>
          cases asks <;> constructor <;>
            simp [Pc.acquired, Pc.slot, Pc.creates, Pc.pending, Pc.Writes]

/-- A call on a slot stays on it. -/
theorem Pc.slot_body
    {p : Fin n} {shared : Shared m n} {pc : Pc m n}
    {effect : Effect (Shared m n) (Lock m n) (Pc m n)} {id : Fin m} :
    pc.body p shared = some effect →
      effect.pc.slot = some id → pc.slot = some id := by
  fun_cases Pc.body p shared pc <;> rintro ⟨⟩ <;> simp [Pc.slot]

/-- A call that has changed the value and not completed holds the slot. -/
theorem Pc.sem_of_pending
    {pc : Pc m n} {id : Fin m} (p : Fin n) (pending : pc.pending id ≠ 0) :
    Lock.sem id ∈ pc.locks p := by
  cases pc <;> simp_all [Pc.pending, Pc.locks]

theorem Pc.slot_of_pending
    {pc : Pc m n} {id : Fin m} (pending : pc.pending id ≠ 0) :
    pc.slot = some id := by
  cases pc <;> simp_all [Pc.pending, Pc.slot]

theorem Pc.pending_le_one (pc : Pc m n) (id : Fin m) : pc.pending id ≤ 1 := by
  cases pc <;> simp only [Pc.pending] <;> grind

theorem Pc.array_of_creates
    {pc : Pc m n} {id : Fin m} (p : Fin n) (creates : pc.creates = some id) :
    Lock.array ∈ pc.locks p := by
  cases pc <;> first | exact List.mem_singleton_self _ | cases creates

/-! ## The life of a slot -/

/-- A slot that `sem_create` has taken stays in use until it is returned. -/
theorem used_of_creates
    {state : SemState m n} (reached : (semSystem m n).Reachable state)
    {p : Fin n} {id : Fin m} (creates : (state.pc p).creates = some id) :
    (state.shared.sems id).used = true := by
  revert p
  refine reached.invariant (fun state => ∀ {p : Fin n},
    (state.pc p).creates = some id → (state.shared.sems id).used = true)
    ?_ ?_
  · rintro state ⟨-, -, outside⟩ p creates
    rw [outside] at creates
    cases creates
  · intro state label next before used taken q creates
    have owned := owned_of_reachable before
    cases semStep_of_exec taken with
    | advance p move pc owner moves =>
        by_cases same : q = p
        · subst same
          simp [moves.harmless.creates.2] at creates
        · exact used (by simpa [Function.update_of_ne same] using creates)
    | body p choice effect asks ran =>
        have stays : (state.pc q).creates = some id →
            (effect.shared.sems id).used = true := by
          intro creating
          refine (Pc.slotStep id ran).used (used creating) ?_
          intro before
          have same : q = p := owned.unique
            (Pc.array_of_creates q creating) (by simp [before, Pc.locks])
          rw [same, before] at creating
          cases creating
        simp only [Program.apply] at creates ⊢
        by_cases same : q = p
        · subst same
          rw [Function.update_self] at creates
          rcases (Pc.slotStep id ran).creates creates with creating | now
          · exact stays creating
          · exact now.2
        · rw [Function.update_of_ne same] at creates
          exact stays creates

/--
`sem_create` with argument `initValue` has taken the slot, and no process is in
a call on it.
-/
structure Taken (id : Fin m) (initValue : Int) (state : SemState m n) :
    Prop where
  reached : (semSystem m n).Reachable state
  creator : ∃ p, state.pc p = .createValue initValue id
  fresh : ∀ q, (state.pc q).slot ≠ some id

/-- The step frees the slot. -/
def Frees (id : Fin m) (state : SemState m n) (label : SemLabel n) : Prop :=
  state.pc label.1 = .freeTest id ∧
    (state.shared.sems id).value = (state.shared.sems id).initValue

/--
The slot is not freed, and a call on it starts only when no `sem_create` has yet
to return it.
-/
def Orderly (id : Fin m) (state : SemState m n) (label : SemLabel n) :
    Prop :=
  ¬ Frees id state label ∧
    ∀ routine ∈ label.2.routine, (routine.entry : Pc m n).slot = some id →
      ∀ q, (state.pc q).creates ≠ some id

instance (id : Fin m) (state : SemState m n) (label : SemLabel n) :
    Decidable (Frees id state label) :=
  inferInstanceAs (Decidable (_ ∧ _))

instance (id : Fin m) (state : SemState m n) (label : SemLabel n) :
    Decidable (Orderly id state label) :=
  inferInstanceAs (Decidable (_ ∧ ∀ routine ∈ _, _))

/-- The runs in the life of a slot. -/
def lifetime (id : Fin m) (first : SemState m n) :
    System (SemState m n) (SemLabel n) :=
  ((semSystem m n).startingAt first).guarded (Orderly id)

/-- The counting invariant, with what holds while `sem_create` is at work. -/
structure Counted (id : Fin m) (initValue : Int) (first state : SemState m n) :
    Prop where
  used : (state.shared.sems id).used = true
  quiet : ∀ q, (state.pc q).creates = some id →
    ∀ r, (state.pc r).slot ≠ some id
  argument : ∀ q w, state.pc q = .createValue w id ∨
    state.pc q = .createInit w id → w = initValue
  unwritten : ∀ q w, state.pc q = .createValue w id →
    balance state id = balance first id
  value : (∀ q w, state.pc q ≠ .createValue w id) →
    (state.shared.sems id).value =
      initValue + balance state id - balance first id
  nonneg : (∀ q w, state.pc q ≠ .createValue w id) →
    0 ≤ (state.shared.sems id).value
  init : (∀ q w, state.pc q ≠ .createValue w id ∧
    state.pc q ≠ .createInit w id) →
      (state.shared.sems id).initValue = initValue
  tested : ∀ q, state.pc q = .downDecrement id →
    (state.shared.sems id).value ≠ 0
  raised : ∀ q, 0 < (state.pc q).pending id →
    0 < (state.shared.sems id).value

/-- A step from and to other places moves no process to or from `target`. -/
theorem update_eq_iff
    {pcs : Fin n → Pc m n} {p : Fin n} {pc target : Pc m n}
    (before : pcs p ≠ target) (after : pc ≠ target) (q : Fin n) :
    Function.update pcs p pc q = target ↔ pcs q = target := by
  by_cases same : q = p
  · subst same
    simp [before, after]
  · rw [Function.update_of_ne same]

/-- The invariant after a step that writes no field of the slot. -/
theorem Counted.still
    {id : Fin m} {initValue : Int} {first state next : SemState m n}
    {p : Fin n} {pc : Pc m n} (counted : Counted id initValue first state)
    (moved : next.pc = Function.update state.pc p pc)
    (sems : next.shared.sems id = state.shared.sems id)
    (balances : balance next id = balance state id)
    (before : ¬ (state.pc p).Writes id)
    (goto : ∀ w, pc ≠ .createValue w id ∧ pc ≠ .createInit w id)
    (tested : pc = .downDecrement id → (state.shared.sems id).value ≠ 0)
    (raised : 0 < pc.pending id → 0 < (state.pc p).pending id)
    (quiet : ∀ q, (next.pc q).creates = some id →
      ∀ r, (next.pc r).slot ≠ some id) :
    Counted id initValue first next := by
  simp only [Pc.Writes, not_or, not_exists] at before
  have sameValue : ∀ w q, next.pc q = .createValue w id ↔
      state.pc q = .createValue w id :=
    fun w q => moved ▸ update_eq_iff (before.1 w) (goto w).1 q
  have sameInit : ∀ w q, next.pc q = .createInit w id ↔
      state.pc q = .createInit w id :=
    fun w q => moved ▸ update_eq_iff (before.2.1 w) (goto w).2 q
  constructor
  · rw [sems]
    exact counted.used
  · exact quiet
  · intro q w writing
    rw [sameValue, sameInit] at writing
    exact counted.argument q w writing
  · intro q w writing
    rw [balances]
    exact counted.unwritten q w ((sameValue w q).mp writing)
  · intro written
    simp only [ne_eq, sameValue] at written
    rw [sems, balances]
    exact counted.value written
  · intro written
    simp only [ne_eq, sameValue] at written
    rw [sems]
    exact counted.nonneg written
  · intro written
    simp only [ne_eq, sameValue, sameInit] at written
    rw [sems]
    exact counted.init written
  · intro q testing
    rw [sems]
    rw [moved] at testing
    by_cases same : q = p
    · subst same
      rw [Function.update_self] at testing
      exact tested testing
    · rw [Function.update_of_ne same] at testing
      exact counted.tested q testing
  · intro q pending
    rw [sems]
    rw [moved] at pending
    by_cases same : q = p
    · subst same
      rw [Function.update_self] at pending
      exact counted.raised q (raised pending)
    · rw [Function.update_of_ne same] at pending
      exact counted.raised q pending

theorem Counted.advance
    {id : Fin m} {initValue : Int} {first state : SemState m n}
    {p : Fin n} {move : Move Call Unit} {pc : Pc m n}
    {owner : Lock m n → Option (Fin n)}
    (counted : Counted id initValue first state)
    (orderly : Orderly id state (p, move))
    (moves : Advance p state.shared (state.pc p) move pc) :
    Counted id initValue first
      ⟨state.shared, owner, Function.update state.pc p pc⟩ := by
  have harmless := moves.harmless
  rcases harmless.writes id with ⟨before, after⟩
  simp only [Pc.Writes, not_or, not_exists] at after
  refine counted.still rfl rfl (balance_move id (harmless.pending id) owner)
    before (fun w => ⟨after.1 w, after.2.1 w⟩)
    (fun testing => absurd testing after.2.2.1)
    (fun pending => harmless.pending id ▸ pending) ?_
  intro q creates r onSlot
  have notP : q ≠ p := by
    rintro rfl
    simp [harmless.creates.2] at creates
  simp only [Function.update_of_ne notP] at creates
  by_cases same : r = p
  · subst same
    simp only [Function.update_self] at onSlot
    rcases harmless.slot with kept | ⟨routine, called, entered⟩
    · exact counted.quiet q creates r (kept ▸ onSlot)
    · subst called
      exact orderly.2 routine rfl (entered ▸ onSlot) q creates
  · simp only [Function.update_of_ne same] at onSlot
    exact counted.quiet q creates r onSlot

/-- The invariant after the value was written: no call is on the slot. -/
theorem Counted.of_silent
    {id : Fin m} {initValue : Int} {first next : SemState m n}
    (used : (next.shared.sems id).used = true)
    (silent : ∀ q, (next.pc q).slot ≠ some id)
    (written : ∀ q w, next.pc q ≠ .createValue w id)
    (argument : ∀ q w, next.pc q = .createInit w id → w = initValue)
    (value : (next.shared.sems id).value =
      initValue + balance next id - balance first id)
    (nonneg : 0 ≤ (next.shared.sems id).value)
    (init : (∀ q w, next.pc q ≠ .createInit w id) →
      (next.shared.sems id).initValue = initValue) :
    Counted id initValue first next := by
  constructor
  case used => exact used
  case quiet => exact fun _ _ => silent
  case argument =>
    rintro q w (writing | writing)
    · exact absurd writing (written q w)
    · exact argument q w writing
  case unwritten =>
    intro q w writing
    exact absurd writing (written q w)
  case value => exact fun _ => value
  case nonneg => exact fun _ => nonneg
  case init => exact fun unwriting => init fun q w => (unwriting q w).2
  case tested =>
    intro q testing
    exact absurd (congrArg Pc.slot testing) (silent q)
  case raised =>
    intro q pending
    exact absurd (Pc.slot_of_pending (by omega)) (silent q)

/-- The invariant after the holder of the lock has changed the value. -/
theorem Counted.of_holder
    {id : Fin m} {initValue : Int} {first next : SemState m n} (p : Fin n)
    (used : (next.shared.sems id).used = true)
    (uncreated : ∀ q, (next.pc q).creates ≠ some id)
    (value : (next.shared.sems id).value =
      initValue + balance next id - balance first id)
    (nonneg : 0 ≤ (next.shared.sems id).value)
    (init : (next.shared.sems id).initValue = initValue)
    (alone : ∀ q, .sem id ∈ (next.pc q).locks q → q = p)
    (moved : next.pc p ≠ .downDecrement id)
    (raised : 0 < (next.pc p).pending id →
      0 < (next.shared.sems id).value) :
    Counted id initValue first next := by
  constructor
  case used => exact used
  case quiet => exact fun q creates => absurd creates (uncreated q)
  case argument =>
    rintro q w (writing | writing)
    · exact absurd (congrArg Pc.creates writing) (uncreated q)
    · exact absurd (congrArg Pc.creates writing) (uncreated q)
  case unwritten =>
    intro q w writing
    exact absurd (congrArg Pc.creates writing) (uncreated q)
  case value => exact fun _ => value
  case nonneg => exact fun _ => nonneg
  case init => exact fun _ => init
  case tested =>
    intro q testing
    have holds : .sem id ∈ (next.pc q).locks q := by
      rw [testing]
      exact List.mem_singleton_self _
    rw [alone q holds] at testing
    exact absurd testing moved
  case raised =>
    intro q pending
    have here : q = p := alone q (Pc.sem_of_pending q (by omega))
    rw [here] at pending
    exact raised pending

section Body

variable {id : Fin m} {initValue : Int} {first state : SemState m n}
variable {p : Fin n} {effect : Effect (Shared m n) (Lock m n) (Pc m n)}

/-- A step brings no process onto a slot. -/
theorem slot_of_apply
    (ran : (state.pc p).body p state.shared = some effect) {q : Fin n}
    (slot : ((Program.apply state p effect).pc q).slot = some id) :
    (state.pc q).slot = some id := by
  by_cases same : q = p
  · subst same
    simp only [Program.apply, Function.update_self] at slot
    exact Pc.slot_body ran slot
  · simpa only [Program.apply, Function.update_of_ne same] using slot

namespace Counted

/-- A slot in use is not created again. -/
theorem creates_of_apply (counted : Counted id initValue first state)
    (ran : (state.pc p).body p state.shared = some effect) {q : Fin n}
    (creates : ((Program.apply state p effect).pc q).creates = some id) :
    (state.pc q).creates = some id := by
  by_cases same : q = p
  · subst same
    simp only [Program.apply, Function.update_self] at creates
    rcases (Pc.slotStep id ran).creates creates with creating | taken
    · exact creating
    · exact absurd counted.used (by simp [taken.1])
  · simpa only [Program.apply, Function.update_of_ne same] using creates

/-- Nobody writes the fields of a slot that a call is on. -/
theorem not_writing (counted : Counted id initValue first state)
    (slot : (state.pc p).slot = some id) (q : Fin n) (w : Int) :
    state.pc q ≠ .createValue w id ∧ state.pc q ≠ .createInit w id :=
  ⟨fun writing => counted.quiet q (congrArg Pc.creates writing) p slot,
    fun writing => counted.quiet q (congrArg Pc.creates writing) p slot⟩

/-- One process creates the slot. -/
theorem creator_eq (owned : Owned state)
    (counted : Counted id initValue first state)
    (ran : (state.pc p).body p state.shared = some effect)
    (creating : (state.pc p).creates = some id) {q : Fin n}
    (creates : ((Program.apply state p effect).pc q).creates = some id) :
    q = p :=
  owned.unique (Pc.array_of_creates q (counted.creates_of_apply ran creates))
    (Pc.array_of_creates p creating)

/-- The assignment to `value` in `sem_create`. -/
theorem body_value (nonneg : 0 ≤ initValue) (owned : Owned state)
    (counted : Counted id initValue first state)
    (ran : (state.pc p).body p state.shared = some effect) {w : Int}
    (before : state.pc p = .createValue w id)
    (after : effect.shared.sems id =
      { state.shared.sems id with value := w })
    (goto : effect.pc = .createInit w id) :
    Counted id initValue first (Program.apply state p effect) := by
  have creating : (state.pc p).creates = some id := by rw [before]; rfl
  have mine : (Program.apply state p effect).pc p = .createInit w id :=
    (Function.update_self _ _ _).trans goto
  obtain rfl : w = initValue := counted.argument p w (.inl before)
  have balances := balance_apply id ran
  rw [before, counted.unwritten p w before] at balances
  simp only [reduceCtorEq, if_false, add_zero] at balances
  refine .of_silent ?_ ?_ ?_ ?_ ?_ ?_ ?_
  · exact (congrArg Sem.used after).trans counted.used
  · exact fun q slot => counted.quiet p creating q (slot_of_apply ran slot)
  · intro q v writing
    obtain rfl :=
      creator_eq owned counted ran creating (congrArg Pc.creates writing)
    rw [mine] at writing
    cases writing
  · intro q v writing
    obtain rfl :=
      creator_eq owned counted ran creating (congrArg Pc.creates writing)
    rw [mine] at writing
    cases writing
    rfl
  · rw [balances]
    refine (congrArg Sem.value after).trans ?_
    dsimp only
    omega
  · exact (congrArg Sem.value after).symm ▸ nonneg
  · exact fun unwriting => absurd mine (unwriting p w)

/-- The assignment to `init_value` in `sem_create`. -/
theorem body_init (owned : Owned state)
    (counted : Counted id initValue first state)
    (ran : (state.pc p).body p state.shared = some effect) {w : Int}
    (before : state.pc p = .createInit w id)
    (after : effect.shared.sems id =
      { state.shared.sems id with initValue := w })
    (goto : effect.pc = .createReturn (some id)) :
    Counted id initValue first (Program.apply state p effect) := by
  have creating : (state.pc p).creates = some id := by rw [before]; rfl
  have mine : (Program.apply state p effect).pc p = .createReturn (some id) :=
    (Function.update_self _ _ _).trans goto
  obtain rfl : w = initValue := counted.argument p w (.inr before)
  have written : ∀ q v, state.pc q ≠ .createValue v id := by
    intro q v writing
    have same : q = p :=
      owned.unique (Pc.array_of_creates q (congrArg Pc.creates writing))
        (Pc.array_of_creates p creating)
    rw [same, before] at writing
    cases writing
  have balances := balance_apply id ran
  rw [before] at balances
  simp only [reduceCtorEq, if_false, add_zero] at balances
  refine .of_silent ?_ ?_ ?_ ?_ ?_ ?_ ?_
  · exact (congrArg Sem.used after).trans counted.used
  · exact fun q slot => counted.quiet p creating q (slot_of_apply ran slot)
  · intro q v writing
    obtain rfl :=
      creator_eq owned counted ran creating (congrArg Pc.creates writing)
    rw [mine] at writing
    cases writing
  · intro q v writing
    obtain rfl :=
      creator_eq owned counted ran creating (congrArg Pc.creates writing)
    rw [mine] at writing
    cases writing
  · rw [balances]
    exact (congrArg Sem.value after).trans (counted.value written)
  · exact (congrArg Sem.value after).symm ▸ counted.nonneg written
  · exact fun _ => congrArg Sem.initValue after

/-- The change of `value` in `sem_down` and `sem_up`. -/
theorem body_change (owned : Owned state)
    (counted : Counted id initValue first state)
    (ran : (state.pc p).body p state.shared = some effect) {change : Int}
    (slot : (state.pc p).slot = some id)
    (holds : .sem id ∈ (state.pc p).locks p)
    (after : effect.shared.sems id = { state.shared.sems id with
      value := (state.shared.sems id).value + change })
    (balances : balance (Program.apply state p effect) id =
      balance state id + change)
    (least : 0 ≤ (state.shared.sems id).value + change)
    (moved : effect.pc ≠ .downDecrement id)
    (raised : 0 < effect.pc.pending id →
      0 < (state.shared.sems id).value + change) :
    Counted id initValue first (Program.apply state p effect) := by
  have mine : (Program.apply state p effect).pc p = effect.pc :=
    Function.update_self _ _ _
  have value : ((Program.apply state p effect).shared.sems id).value =
      (state.shared.sems id).value + change :=
    congrArg Sem.value after
  refine .of_holder p ?_ ?_ ?_ ?_ ?_ ?_ ?_ ?_
  · exact (congrArg Sem.used after).trans counted.used
  · exact fun q creates =>
      counted.quiet q (counted.creates_of_apply ran creates) p slot
  · have counts := counted.value fun q w => (counted.not_writing slot q w).1
    rw [value, balances]
    omega
  · rwa [value]
  · exact (congrArg Sem.initValue after).trans
      (counted.init (counted.not_writing slot))
  · intro q member
    by_contra other
    simp only [Program.apply, Function.update_of_ne other] at member
    exact other (owned.unique member holds)
  · rwa [mine]
  · rwa [mine, value]

/-- The invariant after a step that does not free the slot. -/
theorem body (nonneg : 0 ≤ initValue) (owned : Owned state)
    (counted : Counted id initValue first state)
    (kept : ¬ Frees id state (p, .go ()))
    (ran : (state.pc p).body p state.shared = some effect) :
    Counted id initValue first (Program.apply state p effect) := by
  have balances := balance_apply id ran
  cases Pc.slotStep id ran with
  | keep same before created goto tested raised =>
      simp only [Pc.Writes, not_or] at before
      rw [if_neg before.2.2.2, if_neg before.2.2.1, add_zero] at balances
      refine counted.still rfl same balances
        (by simpa [Pc.Writes] using before) goto tested raised ?_
      exact fun q creates r slot =>
        counted.quiet q (counted.creates_of_apply ran creates) r
          (slot_of_apply ran slot)
  | take w unused before after goto =>
      rw [counted.used] at unused
      cases unused
  | value w before after goto =>
      exact body_value nonneg owned counted ran before after goto
  | init w before after goto =>
      exact body_init owned counted ran before after goto
  | free equal before after goto => exact absurd ⟨before, equal⟩ kept
  | down before after goto =>
      have slot : (state.pc p).slot = some id := by rw [before]; rfl
      have holds : .sem id ∈ (state.pc p).locks p := by
        rw [before]
        exact List.mem_singleton_self _
      have positive := counted.tested p before
      have least :=
        counted.nonneg fun q w => (counted.not_writing slot q w).1
      rw [before] at balances
      simp only [reduceCtorEq, if_false, if_true] at balances
      refine body_change owned counted ran slot holds after balances ?_ ?_ ?_
      · omega
      · simp [goto]
      · simp [goto, Pc.pending]
  | up before after goto =>
      have slot : (state.pc p).slot = some id := by rw [before]; rfl
      have holds : .sem id ∈ (state.pc p).locks p := by
        rw [before]
        exact List.mem_singleton_self _
      have least :=
        counted.nonneg fun q w => (counted.not_writing slot q w).1
      rw [before] at balances
      simp only [if_true] at balances
      refine body_change owned counted ran slot holds after balances ?_ ?_ ?_
      · omega
      · simp [goto]
      · intro _
        omega

end Counted

end Body

theorem Taken.counted
    {id : Fin m} {initValue : Int} {first : SemState m n}
    (taken : Taken id initValue first) :
    Counted id initValue first first := by
  rcases taken.creator with ⟨p, creator⟩
  have creating : (first.pc p).creates = some id := by rw [creator]; rfl
  have owned := owned_of_reachable taken.reached
  have alone : ∀ q, (first.pc q).creates = some id → q = p :=
    fun q creates => owned.unique (Pc.array_of_creates q creates)
      (Pc.array_of_creates p creating)
  constructor
  · exact used_of_creates taken.reached creating
  · exact fun q creates r => taken.fresh r
  · intro q w writing
    have same : q = p := by
      apply alone
      rcases writing with value | init
      · rw [value]
        rfl
      · rw [init]
        rfl
    subst same
    rw [creator] at writing
    rcases writing with value | init
    · cases value
      rfl
    · cases init
  · exact fun _ _ _ => rfl
  · exact fun written => absurd creator (written p initValue)
  · exact fun written => absurd creator (written p initValue)
  · exact fun written => absurd creator (written p initValue).1
  · intro q testing
    exact absurd (by rw [testing]; rfl) (taken.fresh q)
  · intro q pending
    exact absurd (Pc.slot_of_pending (by omega)) (taken.fresh q)

/-- The counting invariant holds through the life of a slot. -/
theorem counted_of_reachable
    {id : Fin m} {initValue : Int} {first state : SemState m n}
    (nonneg : 0 ≤ initValue) (taken : Taken id initValue first)
    (reached : (lifetime id first).Reachable state) :
    Counted id initValue first state := by
  have everywhere : ∀ {state}, (lifetime id first).Reachable state →
      (semSystem m n).Reachable state :=
    fun reached => taken.reached.of_startingAt reached.of_guarded
  refine reached.invariant (Counted id initValue first) ?_ ?_
  · rintro state rfl
    exact taken.counted
  · rintro state label next before counted ⟨orderly, step⟩
    have owned := owned_of_reachable (everywhere before)
    cases semStep_of_exec step with
    | advance p move pc owner moves => exact counted.advance orderly moves
    | body p choice effect asks ran =>
        exact counted.body nonneg owned orderly.1 ran

/-! ## Completed calls -/

/-- The `sem_up` calls on the slot that `q` has completed since `first`. -/
def upsSince (id : Fin m) (first state : SemState m n) (q : Fin n) : Int :=
  state.shared.ups id q - first.shared.ups id q

/-- The `sem_down` calls on the slot that `q` has completed since `first`. -/
def downsSince (id : Fin m) (first state : SemState m n) (q : Fin n) : Int :=
  state.shared.downs id q - first.shared.downs id q

/-- The counting law of a slot created with `initValue`. -/
structure CountingLaw (id : Fin m) (initValue : Int)
    (first state : SemState m n) : Prop where
  value : state.owner (.sem id) = none →
    (state.shared.sems id).value =
      initValue + ∑ q, upsSince id first state q -
        ∑ q, downsSince id first state q
  nonneg : state.owner (.sem id) = none → 0 ≤ (state.shared.sems id).value
  bound : ∑ q, downsSince id first state q ≤
    initValue + ∑ q, upsSince id first state q
  exclusive : initValue = 1 →
    (∀ q, upsSince id first state q ≤ downsSince id first state q) →
      ∀ q r, upsSince id first state q < downsSince id first state q →
        upsSince id first state r < downsSince id first state r → q = r
  freeChecks : ∀ p next, state.pc p = .freeCheck id →
    (semProgram m n).exec state (p, .go ()) = some next →
      next.pc p = .freeAcquireSem id
  freeReturns : ∀ p next, state.pc p = .freeTest id →
    (semProgram m n).exec state (p, .go ()) = some next →
      next.pc p = .freeReleaseSem id
        (if ∑ q, upsSince id first state q = ∑ q, downsSince id first state q
          then 0 else -1)

/-- The balance since `first` is made of completed and pending calls. -/
theorem balance_sub
    {id : Fin m} {first : SemState m n}
    (still : ∀ q, (first.pc q).pending id = 0) (state : SemState m n) :
    balance state id - balance first id =
      ∑ q, upsSince id first state q - ∑ q, downsSince id first state q +
        ∑ q, (state.pc q).pending id := by
  simp only [balance, credit, upsSince, downsSince, still,
    Finset.sum_add_distrib, Finset.sum_sub_distrib, add_zero]
  omega

theorem Taken.still
    {id : Fin m} {initValue : Int} {first : SemState m n}
    (taken : Taken id initValue first) (q : Fin n) :
    (first.pc q).pending id = 0 := by
  by_contra pending
  exact taken.fresh q (Pc.slot_of_pending pending)

/-- Only the holder of the slot can have changed the value. -/
theorem sum_pending_eq_zero
    {id : Fin m} {state : SemState m n} (owned : Owned state)
    (still : ∀ q, state.owner (.sem id) = some q →
      (state.pc q).pending id = 0) :
    ∑ q, (state.pc q).pending id = 0 := by
  apply Finset.sum_eq_zero
  intro q _
  by_contra pending
  exact pending (still q
    ((owned.owner q _).mpr (Pc.sem_of_pending q pending)))

theorem sum_pending_eq
    {id : Fin m} {state : SemState m n} (owned : Owned state) {q : Fin n}
    (pending : (state.pc q).pending id ≠ 0) :
    ∑ r, (state.pc r).pending id = (state.pc q).pending id := by
  apply Finset.sum_eq_single q
  · intro r _ other
    by_contra both
    exact other (owned.unique (Pc.sem_of_pending r both)
      (Pc.sem_of_pending q pending))
  · intro absent
    exact absurd (Finset.mem_univ q) absent

theorem sum_pending_le_one
    {state : SemState m n} (owned : Owned state) (id : Fin m) :
    ∑ q, (state.pc q).pending id ≤ 1 := by
  by_cases pending : ∃ q, (state.pc q).pending id ≠ 0
  · rcases pending with ⟨q, pending⟩
    rw [sum_pending_eq owned pending]
    exact Pc.pending_le_one _ id
  · have none : ∑ q, (state.pc q).pending id = 0 :=
      Finset.sum_eq_zero fun q _ => by
        by_contra some
        exact pending ⟨q, some⟩
    omega

/-- No more `sem_down` calls complete than there were units. -/
theorem sum_downsSince_le
    {id : Fin m} {initValue : Int} {first state : SemState m n}
    (owned : Owned state) (still : ∀ q, (first.pc q).pending id = 0)
    (value : (state.shared.sems id).value =
      initValue + balance state id - balance first id)
    (nonneg : 0 ≤ (state.shared.sems id).value)
    (raised : ∀ q, 0 < (state.pc q).pending id →
      0 < (state.shared.sems id).value) :
    ∑ q, downsSince id first state q ≤
      initValue + ∑ q, upsSince id first state q := by
  have balances := balance_sub still state
  by_cases pending : ∃ q, 0 < (state.pc q).pending id
  · rcases pending with ⟨q, pending⟩
    have positive := raised q pending
    have atMost := (state.pc q).pending_le_one id
    have sum := sum_pending_eq owned pending.ne'
    omega
  · have lowered : ∑ q, (state.pc q).pending id ≤ 0 :=
      Finset.sum_nonpos fun q _ => by
        by_contra positive
        exact pending ⟨q, by omega⟩
    omega

/-- At most one of the counters of a sum that is at most one is positive. -/
theorem eq_of_sum_le_one {counts : Fin n → Int}
    (nonneg : ∀ q, 0 ≤ counts q) (small : ∑ q, counts q ≤ 1) {q r : Fin n}
    (first : 0 < counts q) (second : 0 < counts r) :
    q = r := by
  by_contra distinct
  have pair : ∑ s ∈ {q, r}, counts s ≤ ∑ s, counts s :=
    Finset.sum_le_sum_of_subset_of_nonneg (Finset.subset_univ _)
      fun s _ _ => nonneg s
  rw [Finset.sum_pair distinct] at pair
  omega

/-- `sem_free` goes on to the lock of a slot in use. -/
theorem pc_of_freeCheck
    {id : Fin m} {state next : SemState m n} {p : Fin n}
    (used : (state.shared.sems id).used = true)
    (checking : state.pc p = .freeCheck id)
    (step : (semProgram m n).exec state (p, .go ()) = some next) :
    next.pc p = .freeAcquireSem id := by
  rcases Program.body_of_exec (congrArg (Pc.asks p state.shared) checking)
    step with ⟨effect, ran, rfl⟩
  have ran : (state.pc p).body p state.shared = some effect := ran
  simp only [checking, Pc.body, used, if_true, Option.some.injEq] at ran
  rw [← ran]
  exact Function.update_self _ _ _

/-- `sem_free` returns whether the value is the initial one. -/
theorem pc_of_freeTest
    {id : Fin m} {state next : SemState m n} {p : Fin n}
    (testing : state.pc p = .freeTest id)
    (step : (semProgram m n).exec state (p, .go ()) = some next) :
    next.pc p = .freeReleaseSem id
      (if (state.shared.sems id).value = (state.shared.sems id).initValue
        then 0 else -1) := by
  rcases Program.body_of_exec (congrArg (Pc.asks p state.shared) testing)
    step with ⟨effect, ran, rfl⟩
  have ran : (state.pc p).body p state.shared = some effect := ran
  simp only [testing, Pc.body] at ran
  split at ran
  · next equal =>
    cases ran
    rw [if_pos equal]
    exact Function.update_self _ _ _
  · next different =>
    cases ran
    rw [if_neg different]
    exact Function.update_self _ _ _

/--
From the creation of a slot until it is freed, when calls on it start only
after `sem_create` has returned it: its value is the initial value plus the
completed `sem_up` calls minus the completed `sem_down` calls and not negative,
no more `sem_down` calls complete than there were units, an initial value of one
excludes, and `sem_free` succeeds exactly when the calls are balanced.
-/
theorem semaphore_counts
    {id : Fin m} {initValue : Int} {first state : SemState m n}
    (nonneg : 0 ≤ initValue) (taken : Taken id initValue first)
    (reached : (lifetime id first).Reachable state)
    (returned : ∀ q, (state.pc q).creates ≠ some id) :
    CountingLaw id initValue first state := by
  have counted := counted_of_reachable nonneg taken reached
  have owned := owned_of_reachable
    (taken.reached.of_startingAt reached.of_guarded)
  have written : ∀ q w, state.pc q ≠ .createValue w id ∧
      state.pc q ≠ .createInit w id := by
    intro q w
    constructor
    · intro writing
      exact returned q (by rw [writing]; rfl)
    · intro writing
      exact returned q (by rw [writing]; rfl)
  have value := counted.value fun q w => (written q w).1
  have valueNonneg := counted.nonneg fun q w => (written q w).1
  have balances := balance_sub taken.still state
  have bound :=
    sum_downsSince_le owned taken.still value valueNonneg counted.raised
  constructor
  case value =>
    intro free
    have still : ∑ q, (state.pc q).pending id = 0 := by
      apply sum_pending_eq_zero owned
      intro q held
      rw [free] at held
      cases held
    omega
  case nonneg => exact fun _ => valueNonneg
  case bound => exact bound
  case exclusive =>
    intro one alternate q r holdsQ holdsR
    have small : ∑ q, (downsSince id first state q -
        upsSince id first state q) ≤ 1 := by
      rw [Finset.sum_sub_distrib]
      omega
    exact eq_of_sum_le_one (fun s => sub_nonneg.mpr (alternate s)) small
      (sub_pos.mpr holdsQ) (sub_pos.mpr holdsR)
  case freeChecks =>
    intro p next checking step
    exact pc_of_freeCheck counted.used checking step
  case freeReturns =>
    intro p next testing step
    have still : ∑ q, (state.pc q).pending id = 0 := by
      apply sum_pending_eq_zero owned
      intro q held
      have same : q = p := owned.unique ((owned.owner q _).mp held)
        (by simp [testing, Pc.locks])
      rw [same, testing]
      rfl
    have init := counted.init written
    have balanced : (state.shared.sems id).value =
        (state.shared.sems id).initValue ↔
        ∑ q, upsSince id first state q = ∑ q, downsSince id first state q := by
      omega
    rw [pc_of_freeTest testing step]
    simp only [balanced]

/-! ## One unit -/

/-- No process has called anything yet. -/
def booted : SemState 1 2 where
  shared :=
    { sems := fun _ => ⟨0, 0, false⟩
      procs := fun p => ⟨.running, none, false, p + 1⟩
      ups := fun _ _ => 0
      downs := fun _ _ => 0
      creations := fun _ => 0
      passed := fun _ => 0 }
  owner _ := none
  pc _ := .outside

theorem starts_booted : (semSystem 1 2).start booted :=
  ⟨⟨fun _ => rfl, fun _ => rfl, fun _ _ => rfl, fun _ _ => rfl⟩,
    fun _ => rfl, fun _ => rfl⟩

theorem reachable_booted : (semSystem 1 2).Reachable booted :=
  .start starts_booted

/-- The process that creates the semaphore in a small run. -/
def creator : Fin 2 := ⟨0, Nat.two_pos⟩

/-- The other process of a small run. -/
def user : Fin 2 := ⟨1, Nat.one_lt_two⟩

/-- The slot of a small run. -/
def onlySlot : Fin 1 := ⟨0, Nat.one_pos⟩

/-- The creator has taken the slot for a semaphore of one unit. -/
def oneUnit : SemState 1 2 :=
  (List.foldlM (semProgram 1 2).exec booted
    [(creator, .call (.semCreate 1)), (creator, .go ()),
      (creator, .go ())]).get (by decide)

theorem taken_oneUnit : Taken 0 1 oneUnit where
  reached := reachable_booted.of_run (fun _ _ _ taken => taken)
    (Option.some_get _).symm
  creator := ⟨0, by decide⟩
  fresh := by decide

/-- A step in the life of the slot. -/
def lifetimeStep (id : Fin m) (state : SemState m n) (label : SemLabel n) :
    Option (SemState m n) :=
  if Orderly id state label then (semProgram m n).exec state label else none

theorem lifetimeStep_sound
    {id : Fin m} (first state : SemState m n) (label : SemLabel n)
    (next : SemState m n) (taken : lifetimeStep id state label = some next) :
    (lifetime id first).step state label next := by
  unfold lifetimeStep at taken
  split at taken
  · rename_i orderly
    exact ⟨orderly, taken⟩
  · cases taken

/-- `sem_create` has returned, and the user has taken the unit. -/
def unitTaken : SemState 1 2 :=
  (List.foldlM (lifetimeStep onlySlot) oneUnit
    [(creator, .go ()), (creator, .go ()), (creator, .go ()),
      (user, .call (.semDown onlySlot)), (user, .go ()), (user, .go ()),
      (user, .go ()), (user, .go ()), (user, .go ())]).get (by decide)

theorem semaphore_counts_unitTaken : CountingLaw 0 1 oneUnit unitTaken :=
  semaphore_counts (by decide) taken_oneUnit
    (System.Reachable.of_run (lifetimeStep_sound oneUnit) (.start rfl)
      (Option.some_get _).symm)
    (by decide)

end OSCourse.Semaphore
