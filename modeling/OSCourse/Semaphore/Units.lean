import OSCourse.Semaphore.Wakeups

/-!
# Units

`sem_down` waits while the value is zero.  On a slot that was given a value of
at least zero it therefore takes a unit whenever it returns 0.  `sem_create`
accepts negative values too, and a negative value does not stop `sem_down`.
`sem_create` writes the value without the lock of the slot, so a `sem_down` that
guessed the id can have taken, just before, a unit that the value does not miss.
-/

namespace OSCourse.Semaphore

open OSCourse.Library.LockProgram
open OSCourse.Library.TransitionSystem

variable {m n : Nat}

/-! ## The runs of a slot -/

/-- `sem_create` has just given the slot its value. -/
structure Valued (id : Fin m) (initValue : Int) (state : SemState m n) :
    Prop where
  reached : (semSystem m n).Reachable state
  creator : ∃ p, state.pc p = .createInit initValue id
  value : (state.shared.sems id).value = initValue

/--
The condition on that state: no `sem_down` on the slot has lowered the value
that was there before, or is about to lower a value of 0.
-/
def Clear (id : Fin m) (state : SemState m n) : Prop :=
  ∀ q, state.pc q ≠ .downReturn id 0 ∧
    ((state.shared.sems id).value = 0 → state.pc q ≠ .downDecrement id)

instance (id : Fin m) (state : SemState m n) : Decidable (Clear id state) :=
  inferInstanceAs (Decidable (∀ _, _))

/-! ## The count -/

/-- The value of a slot since `sem_create` wrote it. -/
structure Recorded (id : Fin m) (initValue : Int)
    (first state : SemState m n) : Prop where
  used : (state.shared.sems id).used = true
  assigned : ∀ q w, state.pc q ≠ .createValue w id
  value : (state.shared.sems id).value =
    initValue + balance state id - balance first id

section Invariant

variable {id : Fin m} {initValue : Int} {first state : SemState m n}
variable {p : Fin n} {effect : Effect (Shared m n) (Lock m n) (Pc m n)}

theorem Valued.recorded (valued : Valued id initValue first) :
    Recorded id initValue first first := by
  have owned := owned_of_reachable valued.reached
  rcases valued.creator with ⟨p, creating⟩
  constructor
  case used => exact used_of_creates valued.reached (by rw [creating]; rfl)
  case assigned =>
    intro q w writing
    have same : q = p := owned.unique
      (Pc.array_of_creates q (by rw [writing]; rfl))
      (Pc.array_of_creates p (by rw [creating]; rfl))
    rw [same, creating] at writing
    cases writing
  case value => rw [valued.value, Int.add_sub_cancel]

theorem Recorded.advance {move : Move Call Unit} {pc : Pc m n}
    {owner : Lock m n → Option (Fin n)}
    (recorded : Recorded id initValue first state)
    (moves : Advance p state.shared (state.pc p) move pc) :
    Recorded id initValue first
      ⟨state.shared, owner, Function.update state.pc p pc⟩ := by
  rcases moves.harmless.writes id with ⟨before, after⟩
  simp only [Pc.Writes, not_or, not_exists] at before after
  constructor
  case used => exact recorded.used
  case assigned =>
    intro q w writing
    rw [update_eq_iff (before.1 w) (after.1 w)] at writing
    exact recorded.assigned q w writing
  case value =>
    rw [balance_move id (moves.harmless.pending id) owner]
    exact recorded.value

/-- The count after a step that changes the value by as much as the balance. -/
theorem Recorded.change {change : Int}
    (recorded : Recorded id initValue first state)
    (used : (effect.shared.sems id).used = (state.shared.sems id).used)
    (value : (effect.shared.sems id).value =
      (state.shared.sems id).value + change)
    (balances : balance (Program.apply state p effect) id =
      balance state id + change)
    (written : ∀ w, effect.pc ≠ .createValue w id) :
    Recorded id initValue first (Program.apply state p effect) := by
  constructor
  case used => exact used.trans recorded.used
  case assigned =>
    intro q w writing
    rw [apply_pc] at writing
    split at writing
    · exact written w writing
    · exact recorded.assigned q w writing
  case value =>
    have counts := recorded.value
    rw [balances, show ((Program.apply state p effect).shared.sems id).value =
      (state.shared.sems id).value + change from value]
    omega

theorem Recorded.apply
    (recorded : Recorded id initValue first state)
    (kept : ¬ Frees id state (p, .go ()))
    (ran : (state.pc p).body p state.shared = some effect) :
    Recorded id initValue first (Program.apply state p effect) := by
  have balances := balance_apply id ran
  cases Pc.slotStep id ran with
  | keep same before created goto tested raised =>
      simp only [Pc.Writes, not_or, not_exists] at before
      rw [if_neg before.2.2.2, if_neg before.2.2.1] at balances
      exact recorded.change (by rw [same]) (by rw [same, add_zero]) balances
        (fun w => (goto w).1)
  | take w unused before after goto => simp [recorded.used] at unused
  | value w before after goto => exact absurd before (recorded.assigned p w)
  | init w before after goto =>
      simp only [before, reduceCtorEq, if_false] at balances
      exact recorded.change (by rw [after]) (by rw [after, add_zero]) balances
        (by simp [goto])
  | free equal before after goto => exact absurd ⟨before, equal⟩ kept
  | down before after goto =>
      simp only [before, reduceCtorEq, if_false, if_true] at balances
      exact recorded.change (by rw [after]) (by rw [after, Int.sub_eq_add_neg])
        balances (by simp [goto])
  | up before after goto =>
      simp only [before, if_true] at balances
      exact recorded.change (by rw [after]) (by rw [after]) balances
        (by simp [goto])

theorem recorded_of_reachable (valued : Valued id initValue first)
    (reached : (usage id first).Reachable state) :
    Recorded id initValue first state := by
  refine reached.invariant (Recorded id initValue first) ?_ ?_
  · rintro state rfl
    exact valued.recorded
  · rintro state label next - recorded ⟨⟨kept, -⟩, taken⟩
    cases semStep_of_exec taken with
    | advance p move pc owner moves => exact recorded.advance moves
    | body p choice effect asks ran => exact recorded.apply kept ran

/-! ## The invariant -/

/--
The slot never has less than nothing, and a process past its test of the value
finds a unit; one that has given a unit does so too when nobody was in the
middle of that at `sem_create`.
-/
structure Supplied (id : Fin m) (first state : SemState m n) : Prop where
  nonneg : 0 ≤ (state.shared.sems id).value
  tested : ∀ q, state.pc q = .downDecrement id →
    0 < (state.shared.sems id).value
  raised : (∀ r, (first.pc r).pending id = 0) →
    ∀ q, 0 < (state.pc q).pending id → 0 < (state.shared.sems id).value

theorem Valued.supplied (nonneg : 0 ≤ initValue)
    (valued : Valued id initValue first) (clear : Clear id first) :
    Supplied id first first := by
  have given := valued.value
  constructor
  case nonneg => rwa [given]
  case tested =>
    intro q testing
    by_contra none
    exact (clear q).2 (by omega) testing
  case raised =>
    intro still q pending
    have quiet := still q
    omega

theorem Supplied.advance {move : Move Call Unit} {pc : Pc m n}
    {owner : Lock m n → Option (Fin n)} (supplied : Supplied id first state)
    (moves : Advance p state.shared (state.pc p) move pc) :
    Supplied id first
      ⟨state.shared, owner, Function.update state.pc p pc⟩ := by
  have harmless := moves.harmless
  rcases harmless.writes id with ⟨before, after⟩
  simp only [Pc.Writes, not_or, not_exists] at before after
  constructor
  case nonneg => exact supplied.nonneg
  case tested =>
    intro q testing
    rw [update_eq_iff before.2.2.1 after.2.2.1] at testing
    exact supplied.tested q testing
  case raised =>
    intro still q pending
    by_cases same : q = p
    · subst same
      simp only [Function.update_self, harmless.pending id] at pending
      exact supplied.raised still q pending
    · simp only [Function.update_of_ne same] at pending
      exact supplied.raised still q pending

/-- The invariant after the holder of the lock has changed the value. -/
theorem Supplied.change {value : Int}
    (owned : Owned state) (holds : .sem id ∈ (state.pc p).locks p)
    (after : (effect.shared.sems id).value = value) (nonneg : 0 ≤ value)
    (moved : effect.pc ≠ .downDecrement id)
    (raised : 0 < effect.pc.pending id → 0 < value) :
    Supplied id first (Program.apply state p effect) := by
  have value : ((Program.apply state p effect).shared.sems id).value = value :=
    after
  constructor
  case nonneg => rwa [value]
  case tested =>
    intro q testing
    rw [apply_pc] at testing
    split at testing
    · exact absurd testing moved
    · rename_i other
      exact absurd (owned.unique (by simp [testing, Pc.locks]) holds) other
  case raised =>
    intro _ q pending
    rw [value]
    rw [apply_pc] at pending
    split at pending
    · exact raised pending
    · rename_i other
      exact absurd
        (owned.unique (Pc.sem_of_pending q (by omega)) holds) other

/-- The invariant after a step that leaves the value. -/
theorem Supplied.keep (supplied : Supplied id first state)
    (value : (effect.shared.sems id).value = (state.shared.sems id).value)
    (tested : effect.pc = .downDecrement id →
      (state.shared.sems id).value ≠ 0)
    (raised : 0 < effect.pc.pending id → 0 < (state.pc p).pending id) :
    Supplied id first (Program.apply state p effect) := by
  have same : ((Program.apply state p effect).shared.sems id).value =
      (state.shared.sems id).value := value
  constructor
  case nonneg => exact same ▸ supplied.nonneg
  case tested =>
    intro q testing
    rw [same]
    rw [apply_pc] at testing
    split at testing
    · have nonneg := supplied.nonneg
      have nonzero := tested testing
      omega
    · exact supplied.tested q testing
  case raised =>
    intro still q pending
    rw [same]
    rw [apply_pc] at pending
    split at pending
    · exact supplied.raised still p (raised pending)
    · exact supplied.raised still q pending

theorem Supplied.apply
    (supplied : Supplied id first state)
    (recorded : Recorded id initValue first state) (owned : Owned state)
    (kept : ¬ Frees id state (p, .go ()))
    (ran : (state.pc p).body p state.shared = some effect) :
    Supplied id first (Program.apply state p effect) := by
  have nonneg := supplied.nonneg
  cases Pc.slotStep id ran with
  | keep same before created goto tested raised =>
      exact supplied.keep (by rw [same]) tested raised
  | take w unused before after goto => simp [recorded.used] at unused
  | value w before after goto => exact absurd before (recorded.assigned p w)
  | init w before after goto =>
      exact supplied.keep (by rw [after]) (by simp [goto])
        (by simp [goto, Pc.pending])
  | free equal before after goto => exact absurd ⟨before, equal⟩ kept
  | down before after goto =>
      have positive := supplied.tested p before
      have lowered : (effect.shared.sems id).value =
          (state.shared.sems id).value - 1 := by rw [after]
      exact .change owned (by simp [before, Pc.locks]) lowered
        (by omega) (by simp [goto]) (by simp [goto, Pc.pending])
  | up before after goto =>
      have raised : (effect.shared.sems id).value =
          (state.shared.sems id).value + 1 := by rw [after]
      exact .change owned (by simp [before, Pc.locks]) raised
        (by omega) (by simp [goto]) (fun _ => by omega)

theorem supplied_of_reachable (nonneg : 0 ≤ initValue)
    (valued : Valued id initValue first) (clear : Clear id first)
    (reached : (usage id first).Reachable state) :
    Supplied id first state := by
  refine reached.invariant (Supplied id first) ?_ ?_
  · rintro state rfl
    exact valued.supplied nonneg clear
  · rintro state label next before supplied ⟨⟨kept, -⟩, taken⟩
    have everywhere := valued.reached.of_startingAt before.of_guarded
    cases semStep_of_exec taken with
    | advance p move pc owner moves => exact supplied.advance moves
    | body p choice effect asks ran =>
        exact supplied.apply (recorded_of_reachable valued before)
          (owned_of_reachable everywhere) kept ran

end Invariant

/-! ## A process that walks alone -/

/-- A run to a state in which `p` stands at `pc`, the slot has the value, and no
`sem_up` on it has completed. -/
structure Walk (id : Fin m) (first : SemState m n) (p : Fin n) (pc : Pc m n)
    (holder : Option (Fin n)) (value : Int) (state : SemState m n) : Prop where
  reached : (usage id first).Reachable state
  here : state.pc p = pc
  holder : state.owner (.sem id) = holder
  value : (state.shared.sems id).value = value
  ups : state.shared.ups id = first.shared.ups id

section Walking

variable {id : Fin m} {first state : SemState m n} {p : Fin n} {pc : Pc m n}
variable {holder : Option (Fin n)} {value : Int}

theorem Walk.body {effect : Effect (Shared m n) (Lock m n) (Pc m n)}
    {after : Int} {keeper : Option (Fin n)}
    (walk : Walk id first p pc holder value state)
    (asks : pc.asks p state.shared = none)
    (ran : pc.body p state.shared = some effect)
    (quiet : pc ≠ .freeTest id ∧ pc ≠ .upIncrement id)
    (low : pc = .downDecrement id → intMin < value)
    (kept : (if effect.released = some (.sem id) then none else holder) =
      keeper)
    (changed : (effect.shared.sems id).value = after)
    (ups : effect.shared.ups id = state.shared.ups id) :
    ∃ next, Walk id first p effect.pc keeper after next := by
  rcases walk with ⟨reached, rfl, rfl, rfl, sameUps⟩
  refine ⟨Program.apply state p effect, ?_⟩
  constructor
  case reached =>
    refine reached.step (show (usage id first).step _ (p, .go ()) _ from
      ⟨⟨?_, ?_, low⟩, ?_⟩)
    · exact fun freeing => absurd freeing.1 quiet.1
    · exact fun raising => absurd raising quiet.2
    · exact Program.exec_of_step (.body p () effect asks ran)
  case here => exact Function.update_self ..
  case holder => exact kept
  case value => exact changed
  case ups => exact ups.trans sameUps

theorem Walk.call (walk : Walk id first p .outside holder value state)
    (routine : Call) :
    ∃ next, Walk id first p routine.entry holder value next := by
  rcases walk with ⟨reached, here, owner, value, ups⟩
  refine ⟨{ state with
    pc := Function.update state.pc p routine.entry }, ?_⟩
  constructor
  case reached =>
    refine reached.step (show (usage id first).step _ (p, .call routine) _ from
      ⟨⟨?_, ?_, ?_⟩, ?_⟩)
    · simp [Frees, here]
    · simp [here]
    · simp [here]
    · exact Program.exec_of_step (.call p routine here)
  case here => exact Function.update_self ..
  case holder => exact owner
  case value => exact value
  case ups => exact ups

theorem Walk.acquire (walk : Walk id first p pc none value state)
    (asks : pc.asks p state.shared = some (.sem id)) :
    ∃ next, Walk id first p (pc.acquired (.sem id)) (some p) value next := by
  rcases walk with ⟨reached, rfl, owner, value, ups⟩
  have quiet : state.pc p ≠ .freeTest id ∧ state.pc p ≠ .upIncrement id ∧
      state.pc p ≠ .downDecrement id := by
    refine ⟨?_, ?_, ?_⟩ <;> rintro here <;> simp [here, Pc.asks] at asks
  refine ⟨{ state with
    owner := Function.update state.owner (.sem id) (some p)
    pc := Function.update state.pc p
      ((state.pc p).acquired (.sem id)) }, ?_⟩
  constructor
  case reached =>
    refine reached.step (show (usage id first).step _ (p, .go ()) _ from
      ⟨⟨?_, ?_, ?_⟩, ?_⟩)
    · exact fun freeing => absurd freeing.1 quiet.1
    · exact fun raising => absurd raising quiet.2.1
    · exact fun lowering => absurd lowering quiet.2.2
    · exact Program.exec_of_step (.acquire p () _ asks owner)
  case here => exact Function.update_self ..
  case holder => exact Function.update_self ..
  case value => exact value
  case ups => exact ups

theorem slotAt_coe (id : Fin m) : slotAt (id : Int) = some id := by
  unfold slotAt
  rw [dif_pos (by omega)]
  simp

/-- A process outside comes to the decrement of `sem_down` when nobody holds the
slot and the value is not zero. -/
theorem Walk.reaches_decrement {initValue : Int}
    (valued : Valued id initValue first)
    (walk : Walk id first p .outside none value state) (nonzero : value ≠ 0) :
    ∃ next, Walk id first p (.downDecrement id) (some p) value next := by
  obtain ⟨_, called⟩ := walk.call (.semDown id)
  simp only [Call.entry, slotAt_coe, Option.elim_some] at called
  obtain ⟨_, checking⟩ := called.acquire rfl
  have inUse := (recorded_of_reachable valued checking.reached).used
  obtain ⟨_, testing⟩ :=
    checking.body rfl (if_pos inUse) (by simp [Pc.acquired])
      (by simp [Pc.acquired]) rfl checking.value rfl
  exact testing.body rfl (if_neg (testing.value ▸ nonzero)) (by simp)
    (by simp) rfl testing.value rfl

/-- A process outside takes a unit when nobody holds the slot. -/
theorem Walk.takes_unit {initValue : Int}
    (valued : Valued id initValue first)
    (walk : Walk id first p .outside none value state) (unit : 0 < value) :
    ∃ next, Walk id first p .outside none (value - 1) next := by
  obtain ⟨_, decrementing⟩ := walk.reaches_decrement valued unit.ne'
  obtain ⟨_, returning⟩ : ∃ next,
      Walk id first p (.downReturn id 0) (some p) (value - 1) next :=
    decrementing.body rfl rfl (by simp) (fun _ => by unfold intMin; omega) rfl
      (by simp [decrementing.value]) rfl
  exact returning.body rfl rfl (by simp) (by simp) (if_pos rfl)
    returning.value rfl

/-- A process outside takes all units. -/
theorem Walk.takes_units {initValue : Int}
    (valued : Valued id initValue first) (units : Nat)
    (walk : Walk id first p .outside none units state) :
    ∃ last, Walk id first p .outside none 0 last := by
  induction units generalizing state with
  | zero => exact ⟨state, walk⟩
  | succ units induction =>
      obtain ⟨_, taken⟩ := walk.takes_unit valued (by omega)
      exact induction (by simpa using taken)

end Walking

/-! ## The law -/

/--
A `sem_down` that returns 0 has found a positive value at its decrement, and no
more of them have completed than there were units.
-/
structure UnitLaw (id : Fin m) (initValue : Int)
    (first state : SemState m n) : Prop where
  granted : ∀ p next,
    (semProgram m n).exec state (p, .go ()) = some next →
      next.pc p = .downReturn id 0 → 0 < (state.shared.sems id).value
  bound : ∑ q, downsSince id first state q ≤
    max 0 initValue + ∑ q, upsSince id first state q

theorem Pc.decrement_of_return
    {p : Fin n} {shared : Shared m n} {pc : Pc m n} {id : Fin m}
    {effect : Effect (Shared m n) (Lock m n) (Pc m n)} :
    pc.body p shared = some effect →
      effect.pc = .downReturn id 0 → pc = .downDecrement id := by
  fun_cases Pc.body p shared pc <;> rintro ⟨⟩ <;> simp

/-- `sem_down` returns 0 from its decrement only. -/
theorem decrement_of_return
    {id : Fin m} {state next : SemState m n} {p : Fin n}
    (taken : (semProgram m n).exec state (p, .go ()) = some next)
    (returning : next.pc p = .downReturn id 0) :
    state.pc p = .downDecrement id := by
  cases semStep_of_exec taken with
  | advance _ _ pc owner moves =>
      simp only [Function.update_self] at returning
      have pending := moves.harmless.pending id
      rw [returning] at pending
      cases moves with
      | acquire _ lock asks =>
          generalize state.pc p = before at asks pending
          cases before <;> grind [Pc.pending, Pc.asks]
  | body _ _ effect asks ran =>
      simp only [Program.apply, Function.update_self] at returning
      exact Pc.decrement_of_return ran returning

section Law

variable {id : Fin m} {initValue : Int} {first state : SemState m n}
variable {p : Fin n}

/-- The completed calls since `sem_create` make up the value, but for the call
that holds the slot now and the one that held it then. -/
theorem Recorded.completed (recorded : Recorded id initValue first state) :
    (state.shared.sems id).value + ∑ q, downsSince id first state q +
        ∑ q, (first.pc q).pending id =
      initValue + ∑ q, upsSince id first state q +
        ∑ q, (state.pc q).pending id := by
  have counts := recorded.value
  simp only [balance, credit, upsSince, downsSince, Finset.sum_add_distrib,
    Finset.sum_sub_distrib] at counts ⊢
  omega

theorem Clear.nonneg (clear : Clear id first) (q : Fin n) :
    0 ≤ (first.pc q).pending id := by
  have quiet := (clear q).1
  generalize first.pc q = pc at quiet
  cases pc <;> simp only [Pc.pending] <;> grind

theorem unitLaw_of_clear (nonneg : 0 ≤ initValue)
    (valued : Valued id initValue first) (clear : Clear id first)
    (reached : (usage id first).Reachable state) :
    UnitLaw id initValue first state := by
  have supplied := supplied_of_reachable nonneg valued clear reached
  have recorded := recorded_of_reachable valued reached
  have owned := owned_of_reachable
    (valued.reached.of_startingAt reached.of_guarded)
  constructor
  case granted =>
    intro p next taken returning
    exact supplied.tested p (decrement_of_return taken returning)
  case bound =>
    rw [max_eq_right nonneg]
    by_cases still : ∀ r, (first.pc r).pending id = 0
    · exact sum_downsSince_le owned still recorded.value supplied.nonneg
        (supplied.raised still)
    · -- a `sem_up` overlapped the assignment, so its unit is not in the value
      rcases not_forall.mp still with ⟨r, pending⟩
      have least := clear.nonneg r
      have overlap := sum_pending_eq (owned_of_reachable valued.reached) pending
      have most := sum_pending_le_one owned id
      have completed := recorded.completed
      have nonneg := supplied.nonneg
      omega

/-- A process at its decrement breaks the law when there is no unit. -/
theorem UnitLaw.decrement (law : UnitLaw id initValue first state)
    (here : state.pc p = .downDecrement id) :
    0 < (state.shared.sems id).value := by
  let effect : Effect (Shared m n) (Lock m n) (Pc m n) :=
    ⟨state.shared.setSem id { state.shared.sems id with
      value := (state.shared.sems id).value - 1 },
      none, .downReturn id 0⟩
  have taken : (semProgram m n).exec state (p, .go ()) =
      some (Program.apply state p effect) :=
    Program.exec_of_step (.body p () effect
      (congrArg (Pc.asks p state.shared) here)
      (congrArg (Pc.body p state.shared) here))
  exact law.granted p _ taken (Function.update_self ..)

/-- A `sem_down` that had its unit before `sem_create` wrote the value returns
0, and then all units of the value can be taken. -/
theorem not_unitLaw_of_return (nonneg : 0 ≤ initValue)
    (valued : Valued id initValue first)
    (returning : first.pc p = .downReturn id 0) :
    ∃ state, (usage id first).Reachable state ∧
      ¬ UnitLaw id initValue first state := by
  have held : .sem id ∈ (first.pc p).locks p := by simp [returning, Pc.locks]
  have owned := owned_of_reachable valued.reached
  have start : Walk id first p _ (some p) _ first :=
    ⟨.start rfl, returning, (owned.owner p _).mpr held, rfl, rfl⟩
  have units : (first.shared.sems id).value = initValue.toNat := by
    rw [valued.value]
    omega
  obtain ⟨_, outside⟩ := start.body rfl rfl (by simp) (by simp) (if_pos rfl)
    units rfl
  obtain ⟨state, walk⟩ := outside.takes_units valued
  refine ⟨state, walk.reached, ?_⟩
  intro law
  have bound := law.bound
  have completed := (recorded_of_reachable valued walk.reached).completed
  have early : ∑ q, (first.pc q).pending id = -1 := by
    have pending : (first.pc p).pending id = -1 := by
      simp [returning, Pc.pending]
    have changed : (first.pc p).pending id ≠ 0 := by omega
    rw [sum_pending_eq owned changed, pending]
  have late : ∑ q, (state.pc q).pending id = 0 := by
    apply sum_pending_eq_zero
      (owned_of_reachable
        (valued.reached.of_startingAt walk.reached.of_guarded))
    intro q owns
    rw [walk.holder] at owns
    cases owns
  have unraised : ∑ q, upsSince id first state q = 0 := by
    simp [upsSince, walk.ups]
  rw [early, late, unraised, walk.value] at completed
  rw [max_eq_right nonneg, unraised] at bound
  omega

/-- From the assignment of `sem_create` on, with nobody inside a critical
section of the slot, a process comes to the decrement at a value that is not
zero. -/
theorem Valued.reaches_decrement (valued : Valued id initValue first)
    (free : first.owner (.sem id) = none) (nonzero : initValue ≠ 0) :
    ∃ p state,
      Walk id first p (.downDecrement id) (some p) initValue state := by
  rcases valued.creator with ⟨p, creating⟩
  have start : Walk id first p _ none initValue first :=
    ⟨.start rfl, creating, free, valued.value, rfl⟩
  obtain ⟨_, returning⟩ : ∃ next,
      Walk id first p (.createReturn (some id)) none initValue next :=
    start.body rfl rfl (by simp) (by simp) rfl (by simp [valued.value]) rfl
  obtain ⟨_, outside⟩ : ∃ next,
      Walk id first p .outside none initValue next :=
    returning.body rfl rfl (by simp) (by simp) (by simp) returning.value rfl
  exact ⟨p, outside.reaches_decrement valued nonzero⟩

/--
Whatever the interleaving of the calls on a slot from the assignment of its
value on, until it is freed.  For a value that is not negative, every `sem_down`
that returns 0 takes a unit exactly if the condition holds of the `sem_down`
calls that overlap the assignment.  When nobody is inside a critical section of
the slot at the assignment, it does exactly if the value is not negative.
-/
theorem downs_take_units_iff (valued : Valued id initValue first) :
    (0 ≤ initValue →
      ((∀ state, (usage id first).Reachable state →
        UnitLaw id initValue first state) ↔ Clear id first)) ∧
      (first.owner (.sem id) = none →
        ((∀ state, (usage id first).Reachable state →
          UnitLaw id initValue first state) ↔ 0 ≤ initValue)) := by
  have owned := owned_of_reachable valued.reached
  constructor
  · intro nonneg
    constructor
    · intro law q
      constructor
      · intro returning
        rcases not_unitLaw_of_return nonneg valued returning with
          ⟨state, reached, broken⟩
        exact broken (law state reached)
      · intro none testing
        have unit := (law first (.start rfl)).decrement testing
        omega
    · exact fun clear state reached =>
        unitLaw_of_clear nonneg valued clear reached
  · intro free
    constructor
    · intro law
      by_contra negative
      rcases valued.reaches_decrement free (by omega) with ⟨p, state, walk⟩
      have unit := (law state walk.reached).decrement walk.here
      rw [walk.value] at unit
      omega
    · intro nonneg state reached
      refine unitLaw_of_clear nonneg valued ?_ reached
      have unheld : ∀ q, .sem id ∉ (first.pc q).locks q := by
        intro q held
        rw [← owned.owner, free] at held
        cases held
      exact fun q =>
        ⟨fun returning => unheld q (by simp [returning, Pc.locks]),
          fun _ testing => unheld q (by simp [testing, Pc.locks])⟩

end Law

/-! ## A negative initial value -/

/-- `sem_create(initValue)` has given the only slot its value. -/
def createdWith (initValue : Int) : Option (SemState 1 2) :=
  List.foldlM (semProgram 1 2).exec booted
    ((creator, .call (.semCreate initValue)) :: goOn creator 3)

def oneGiven : SemState 1 2 := (createdWith 1).get (by decide)

def debtGiven : SemState 1 2 := (createdWith (-1)).get (by decide)

theorem reachable_createdWith {initValue : Int} {state : SemState 1 2}
    (run : createdWith initValue = some state) :
    (semSystem 1 2).Reachable state :=
  reachable_booted.of_run (fun _ _ _ taken => taken) run

theorem valued_oneGiven : Valued onlySlot 1 oneGiven where
  reached := reachable_createdWith (Option.some_get _).symm
  creator := ⟨creator, by decide⟩
  value := by decide

theorem valued_debtGiven : Valued onlySlot (-1) debtGiven where
  reached := reachable_createdWith (Option.some_get _).symm
  creator := ⟨creator, by decide⟩
  value := by decide

theorem downs_take_units_iff_oneGiven :
    Clear onlySlot oneGiven ∧
      ∀ state, (usage onlySlot oneGiven).Reachable state →
        UnitLaw onlySlot 1 oneGiven state :=
  ⟨by decide,
    ((downs_take_units_iff valued_oneGiven).1 (by decide)).mpr (by decide)⟩

/-- `sem_create` has returned, and `sem_down` of the user has returned 0. -/
def debtTaken : SemState 1 2 :=
  (List.foldlM (usageStep onlySlot) debtGiven
    (goOn creator 2 ++ (user, .call (.semDown onlySlot)) :: goOn user 5)).get
    (by decide)

/-- A `sem_down` completes on a slot that never had a unit. -/
theorem sem_down_takes_nothing :
    Valued onlySlot (-1) debtGiven ∧
      debtGiven.owner (.sem onlySlot) = none ∧
      (usage onlySlot debtGiven).Reachable debtTaken ∧
      (debtTaken.shared.sems onlySlot).value = -2 ∧
      downsSince onlySlot debtGiven debtTaken user = 1 ∧
      ¬ UnitLaw onlySlot (-1) debtGiven debtTaken := by
  refine ⟨valued_debtGiven, by decide, ?_, by decide, by decide, ?_⟩
  · exact System.Reachable.of_run (usageStep_sound debtGiven) (.start rfl)
      (Option.some_get _).symm
  · intro law
    have bound := law.bound
    revert bound
    decide

end OSCourse.Semaphore
