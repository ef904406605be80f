import OSCourse.Semaphore.Wakeups

/-!
# Calls during `sem_create`

`sem_create` marks a slot as used before it writes the value, and holds only the
array lock.  A process that guesses the id passes its used check in between: the
unit of its `sem_up` is overwritten, or its `sem_down` sees the value 0 and
sleeps while `sem_create` gives the slot its units.  When no step does either,
`sem_create` is atomic towards the calls on the slot.
-/

namespace OSCourse.Semaphore

open OSCourse.Library.LockProgram
open OSCourse.Library.TransitionSystem

variable {m n : Nat}

/-! ## Runs without `sem_free` -/

def Call.isFree : Call → Bool
  | .semFree _ => true
  | _ => false

/-- The interleavings of `sem_create`, `sem_up`, `sem_down` and `kill`. -/
def unfreed (m n : Nat) : System (SemState m n) (SemLabel n) :=
  (semSystem m n).guarded fun _ label =>
    ∀ routine ∈ label.2.routine, routine.isFree = false

/-- The process is in `sem_free`. -/
def Pc.inFree : Pc m n → Bool
  | .freeAcquire _ => true
  | .freeCheck _ => true
  | .freeAcquireSem _ => true
  | .freeTest _ => true
  | .freeReleaseSem _ _ => true
  | .freeReturn _ _ => true
  | _ => false

theorem Call.inFree_entry (routine : Call) :
    (routine.entry : Pc m n).inFree = true → routine.isFree = true := by
  cases routine with
  | semCreate initValue => simp [Call.entry, Pc.inFree]
  | kill pid => simp [Call.entry, Pc.inFree]
  | semFree id => simp [Call.isFree]
  | semDown id =>
      simp only [Call.entry]
      cases slotAt id <;> simp [Pc.inFree]
  | semUp id =>
      simp only [Call.entry]
      cases slotAt id <;> simp [Pc.inFree]

theorem Pc.inFree_acquired
    {p : Fin n} {shared : Shared m n} {pc : Pc m n} {lock : Lock m n}
    (asks : pc.asks p shared = some lock) :
    (pc.acquired lock).inFree = pc.inFree := by
  cases pc with
  | wakeup id next =>
      rcases Option.map_eq_some_iff.mp asks with ⟨q, -, rfl⟩
      rfl
  | kill pid next =>
      rcases Option.map_eq_some_iff.mp asks with ⟨q, -, rfl⟩
      rfl
  | asleep id => rfl
  | _ => cases asks <;> rfl

theorem Pc.inFree_body
    {p : Fin n} {shared : Shared m n} {pc : Pc m n}
    {effect : Effect (Shared m n) (Lock m n) (Pc m n)} :
    pc.body p shared = some effect → effect.pc.inFree = true →
      pc.inFree = true := by
  fun_cases Pc.body p shared pc <;> rintro ⟨⟩ <;> simp [Pc.inFree]

/-- Nobody is in `sem_free`. -/
theorem inFree_of_reachable
    {state : SemState m n} (reached : (unfreed m n).Reachable state)
    (q : Fin n) :
    (state.pc q).inFree = false := by
  revert q
  refine reached.invariant (fun state => ∀ q, (state.pc q).inFree = false)
    ?_ ?_
  · rintro state ⟨-, -, outside⟩ q
    exact (congrArg Pc.inFree (outside q)).trans rfl
  · rintro state label next - kept ⟨unfreed, taken⟩ q
    cases semStep_of_exec taken with
    | advance p move pc owner moves =>
        by_cases same : q = p
        · subst same
          simp only [Function.update_self]
          cases moves with
          | call routine idle =>
              by_contra entered
              have freeing := routine.inFree_entry (by simpa using entered)
              simp [unfreed routine rfl] at freeing
          | acquire choice lock asks =>
              rw [Pc.inFree_acquired asks]
              exact kept q
        · simp only [Function.update_of_ne same]
          exact kept q
    | body p choice effect asks ran =>
        by_contra entered
        rw [apply_pc] at entered
        split at entered
        · have before := Pc.inFree_body ran (by simpa using entered)
          simp [kept] at before
        · exact entered (kept q)

/-! ## The condition -/

/--
The condition on a step.  No `sem_up` raises the value of a slot that
`sem_create` has taken and not yet given its value; `sem_create` gives units
only to a slot that nobody sleeps on, or has seen the value 0 of and is about
to; and no value leaves the range of an `int`.
-/
structure Timely (state : SemState m n) (label : SemLabel n) : Prop where
  up : ∀ id, state.pc label.1 = .upIncrement id →
    ∀ q, ∀ write ∈ (state.pc q).writesValue, write.1 ≠ id
  create : ∀ write ∈ (state.pc label.1).writesValue, 0 < write.2 → ∀ q,
    ¬ (state.pc q).Yields write.1 ∧
      ¬ Dozing state.shared write.1 q (state.pc q)
  int : ∀ write ∈ (state.pc label.1).writesValue,
    intMin ≤ write.2 ∧ write.2 ≤ intMax
  fits : ∀ id, Fits id state label

instance (state : SemState m n) (label : SemLabel n) :
    Decidable (Timely state label) :=
  decidable_of_iff
    ((∀ id, state.pc label.1 = .upIncrement id →
        ∀ q, ∀ write ∈ (state.pc q).writesValue, write.1 ≠ id) ∧
      (∀ write ∈ (state.pc label.1).writesValue, 0 < write.2 → ∀ q,
        ¬ (state.pc q).Yields write.1 ∧
          ¬ Dozing state.shared write.1 q (state.pc q)) ∧
      (∀ write ∈ (state.pc label.1).writesValue,
        intMin ≤ write.2 ∧ write.2 ≤ intMax) ∧
      ∀ id, Fits id state label)
    ⟨fun all => ⟨all.1, all.2.1, all.2.2.1, all.2.2.2⟩,
      fun timely => ⟨timely.1, timely.2, timely.3, timely.4⟩⟩

/-- The runs whose steps meet the condition. -/
def timelyRuns (m n : Nat) : System (SemState m n) (SemLabel n) :=
  (unfreed m n).guarded Timely

/-- A process past its used check on the slot. -/
def Pc.Admitted (id : Fin m) (pc : Pc m n) : Prop :=
  pc.past = some id ∨ pc = .upIncrement id ∨ pc.pending id ≠ 0

theorem Pc.admitted_body
    {p : Fin n} {shared : Shared m n} {pc : Pc m n}
    {effect : Effect (Shared m n) (Lock m n) (Pc m n)} {id : Fin m} :
    pc.body p shared = some effect → effect.pc.Admitted id →
      pc.Admitted id ∨ (shared.sems id).used = true := by
  fun_cases Pc.body p shared pc <;> rintro ⟨⟩ <;>
    grind [Pc.Admitted, Pc.past, Pc.pending]

theorem Advance.admitted
    {p : Fin n} {shared : Shared m n} {pc pc' : Pc m n}
    {move : Move Call Unit} {id : Fin m}
    (moves : Advance p shared pc move pc') (admitted : pc'.Admitted id) :
    pc.Admitted id := by
  rcases admitted with past | raising | pending
  · exact .inl (moves.bystander.past ▸ past)
  · exact absurd (.inr (.inr (.inr raising))) (moves.harmless.writes id).2
  · exact .inr (.inr (moves.harmless.pending id ▸ pending))

/--
A slot that was never taken has the value 0 and nobody is past a check of it,
and so it is until `sem_create` has given it its value, but for processes that
have seen the value 0.
-/
structure Blank (id : Fin m) (state : SemState m n) : Prop where
  unused : (state.shared.sems id).used = false →
    (state.shared.sems id).value = 0 ∧ ∀ q, ¬ (state.pc q).Admitted id
  taken : ∀ q w, state.pc q = .createValue w id →
    (state.shared.sems id).value = 0 ∧
      ∀ r, (state.pc r).pending id = 0 ∧ state.pc r ≠ .downDecrement id

theorem Pc.pending_body
    {p : Fin n} {shared : Shared m n} {pc : Pc m n}
    {effect : Effect (Shared m n) (Lock m n) (Pc m n)} {id : Fin m} :
    pc.body p shared = some effect → effect.pc.pending id ≠ 0 →
      pc.pending id ≠ 0 ∨ pc = .upIncrement id ∨ pc = .downDecrement id := by
  fun_cases Pc.body p shared pc <;> rintro ⟨⟩ <;> grind [Pc.pending]

theorem Blank.advance
    {id : Fin m} {state : SemState m n} {p : Fin n} {move : Move Call Unit}
    {pc : Pc m n} {owner : Lock m n → Option (Fin n)}
    (blank : Blank id state)
    (moves : Advance p state.shared (state.pc p) move pc) :
    Blank id ⟨state.shared, owner, Function.update state.pc p pc⟩ := by
  have after := (moves.harmless.writes id).2
  constructor
  · intro unused
    rcases blank.unused unused with ⟨value, outside⟩
    refine ⟨value, ?_⟩
    intro q admitted
    by_cases same : q = p
    · subst same
      exact outside q (moves.admitted (by simpa using admitted))
    · exact outside q
        (by simpa only [Function.update_of_ne same] using admitted)
  · intro q w writing
    have other : q ≠ p := by
      rintro rfl
      exact after (.inl ⟨w, by simpa using writing⟩)
    simp only [Function.update_of_ne other] at writing
    rcases blank.taken q w writing with ⟨value, still⟩
    refine ⟨value, ?_⟩
    intro r
    by_cases same : r = p
    · subst same
      simp only [Function.update_self, moves.harmless.pending id]
      exact ⟨(still r).1, fun lowering => after (.inr (.inr (.inl lowering)))⟩
    · simpa only [Function.update_of_ne same] using still r

section Body

variable {id : Fin m} {state : SemState m n} {p : Fin n}
variable {effect : Effect (Shared m n) (Lock m n) (Pc m n)}

theorem Blank.unused_apply
    (blank : Blank id state) (kept : state.pc p ≠ .freeTest id)
    (created : ∀ q, (state.pc q).creates = some id →
      (state.shared.sems id).used = true)
    (ran : (state.pc p).body p state.shared = some effect)
    (unused : (effect.shared.sems id).used = false) :
    (effect.shared.sems id).value = 0 ∧
      ∀ q, ¬ ((Program.apply state p effect).pc q).Admitted id := by
  have before : (state.shared.sems id).used = false := by
    by_contra used
    simp [(Pc.slotStep id ran).used (by simpa using used) kept] at unused
  have uncreated : (state.pc p).creates ≠ some id := by
    intro creates
    simp [created p creates] at before
  rcases blank.unused before with ⟨value, outside⟩
  constructor
  · cases Pc.slotStep id ran with
    | keep same _ _ _ _ _ => rw [same, value]
    | take w _ here after goto => rw [after, value]
    | value w here after goto => exact absurd (by rw [here]; rfl) uncreated
    | init w here after goto => exact absurd (by rw [here]; rfl) uncreated
    | free equal here after goto => exact absurd here kept
    | down here after goto =>
        exact absurd (.inl (by rw [here]; rfl)) (outside p)
    | up here after goto => exact absurd (.inr (.inl here)) (outside p)
  · intro q admitted
    rw [apply_pc] at admitted
    split at admitted
    · rcases Pc.admitted_body ran admitted with earlier | used
      · exact outside p earlier
      · simp [used] at before
    · exact outside q admitted

/-- While another process has the slot and not yet given it its value, a step
writes no field of it. -/
theorem Blank.keeps
    (blank : Blank id state) (owned : Owned state)
    (timely : Timely state (p, .go ())) {q : Fin n} {w : Int}
    (writing : state.pc q = .createValue w id) (other : q ≠ p)
    (kept : state.pc p ≠ .freeTest id)
    (ran : (state.pc p).body p state.shared = some effect) :
    effect.shared.sems id = state.shared.sems id := by
  have alone : .array ∉ (state.pc p).locks p :=
    fun held => other (owned.unique (by simp [writing, Pc.locks]) held)
  cases Pc.slotStep id ran with
  | keep same _ _ _ _ _ => exact same
  | take w _ here after goto => exact absurd (by simp [here, Pc.locks]) alone
  | value w here after goto => exact absurd (by simp [here, Pc.locks]) alone
  | init w here after goto => exact absurd (by simp [here, Pc.locks]) alone
  | free equal here after goto => exact absurd here kept
  | down here after goto => exact absurd here ((blank.taken q w writing).2 p).2
  | up here after goto =>
      exact absurd rfl (timely.up id here q (id, w)
        (by simp [writing, Pc.writesValue]))

theorem Blank.taken_apply
    (blank : Blank id state) (owned : Owned state)
    (timely : Timely state (p, .go ())) (kept : state.pc p ≠ .freeTest id)
    (ran : (state.pc p).body p state.shared = some effect)
    (q : Fin n) (w : Int)
    (writing : (Program.apply state p effect).pc q = .createValue w id) :
    (effect.shared.sems id).value = 0 ∧
      ∀ r, ((Program.apply state p effect).pc r).pending id = 0 ∧
        (Program.apply state p effect).pc r ≠ .downDecrement id := by
  rw [apply_pc] at writing
  split at writing
  · -- the slot has just been taken, so nobody was past a check of it
    have slot := Pc.slotStep id ran
    rw [writing] at slot
    cases slot with
    | keep _ _ _ goto _ _ => exact absurd rfl (goto w).1
    | take w unused here after goto =>
        rcases blank.unused unused with ⟨value, outside⟩
        refine ⟨by rw [after, value], ?_⟩
        intro r
        rw [apply_pc]
        split
        · simp [writing, Pc.pending]
        · refine ⟨?_, fun lowering => outside r (.inl (by rw [lowering]; rfl))⟩
          by_contra pending
          exact outside r (.inr (.inr pending))
    | value w here after goto => cases goto
    | init w here after goto => cases goto
    | free equal here after goto => cases goto
    | down here after goto => cases goto
    | up here after goto => cases goto
  · rename_i other
    rcases blank.taken q w writing with ⟨value, still⟩
    refine ⟨by rw [blank.keeps owned timely writing other kept ran, value], ?_⟩
    intro r
    rw [apply_pc]
    split
    · constructor
      · by_contra pending
        rcases Pc.pending_body ran pending with before | raising | lowering
        · exact before (still p).1
        · exact timely.up id raising q (id, w)
            (by simp [writing, Pc.writesValue]) rfl
        · exact (still p).2 lowering
      · intro lowering
        exact (Pc.decrement_body ran lowering).2 value
    · exact still r

end Body

/-- What every run that meets the condition keeps. -/
theorem blank_of_reachable
    {state : SemState m n} (reached : (timelyRuns m n).Reachable state)
    (id : Fin m) :
    Blank id state := by
  refine reached.invariant (Blank id) ?_ ?_
  · rintro state ⟨legal, -, outside⟩
    have idle : ∀ q, state.pc q = .outside := outside
    constructor
    · intro _
      simp [legal.sems, idle, Pc.Admitted, Pc.past, Pc.pending]
    · intro q w writing
      simp [idle] at writing
  · rintro state label next before blank ⟨timely, -, taken⟩
    have everywhere := before.of_guarded.of_guarded
    cases semStep_of_exec taken with
    | advance p move pc owner moves => exact blank.advance moves
    | body p choice effect asks ran =>
        have kept : state.pc p ≠ .freeTest id := by
          intro freeing
          have outside := inFree_of_reachable before.of_guarded p
          simp [freeing, Pc.inFree] at outside
        constructor
        · exact blank.unused_apply kept
            (fun q => used_of_creates everywhere) ran
        · exact blank.taken_apply (owned_of_reachable everywhere) timely kept
            ran

theorem Timely.written
    {state : SemState m n} {label : SemLabel n} {id : Fin m} {w : Int}
    (timely : Timely state label) (here : state.pc label.1 = .createValue w id)
    (value : 0 < w) (q : Fin n) :
    ¬ (state.pc q).Yields id ∧ ¬ Dozing state.shared id q (state.pc q) :=
  timely.create (id, w) (by simp [here, Pc.writesValue]) value q

theorem attended_of_reachable
    {state : SemState m n} (reached : (timelyRuns m n).Reachable state)
    (id : Fin m) :
    Attended id state := by
  refine reached.invariant (Attended id) ?_ ?_
  · rintro state ⟨-, -, outside⟩
    have idle : ∀ q, state.pc q = .outside := outside
    constructor <;> simp [idle, Dozing, Pc.Yields]
  · rintro state label next before attended ⟨timely, -, taken⟩
    have everywhere := before.of_guarded.of_guarded
    exact attended.step (owned_of_reachable everywhere)
      (parked_of_reachable everywhere) (fun w => timely.written)
      (semStep_of_exec taken)

/-! ## Counting from the creation on -/

/-- The value of the slot since `first`, in which `sem_create` has taken it. -/
structure Tallied (id : Fin m) (initValue : Int) (first state : SemState m n) :
    Prop where
  used : (state.shared.sems id).used = true
  argument : ∀ q w, state.pc q = .createValue w id → w = initValue
  unwritten : ∀ q w, state.pc q = .createValue w id →
    balance state id = balance first id
  value : (∀ q w, state.pc q ≠ .createValue w id) →
    (state.shared.sems id).value =
      initValue + balance state id - balance first id

/-- One process at a time makes the assignments of `sem_create`. -/
theorem sole_creator
    {id : Fin m} {state : SemState m n} (owned : Owned state) {p q : Fin n}
    {v w : Int} (writing : state.pc q = .createValue w id)
    (creating : state.pc p = .createValue v id) :
    q = p :=
  owned.unique (Pc.array_of_creates q (by rw [writing]; rfl))
    (Pc.array_of_creates p (by rw [creating]; rfl))

/-- The count after a step that leaves the slot and `sem_create` on it alone. -/
theorem Tallied.still
    {id : Fin m} {initValue : Int} {first state next : SemState m n}
    {p : Fin n} {pc : Pc m n} (tallied : Tallied id initValue first state)
    (moved : next.pc = Function.update state.pc p pc)
    (used : (next.shared.sems id).used = true)
    (values : (next.shared.sems id).value - balance next id =
      (state.shared.sems id).value - balance state id)
    (balances : ∀ q w, state.pc q = .createValue w id →
      balance next id = balance state id)
    (before : ∀ w, state.pc p ≠ .createValue w id)
    (goto : ∀ w, pc ≠ .createValue w id) :
    Tallied id initValue first next := by
  have same : ∀ w q, next.pc q = .createValue w id ↔
      state.pc q = .createValue w id :=
    fun w q => moved ▸ update_eq_iff (before w) (goto w) q
  constructor
  · exact used
  · intro q w writing
    exact tallied.argument q w ((same w q).mp writing)
  · intro q w writing
    rw [same] at writing
    rw [balances q w writing]
    exact tallied.unwritten q w writing
  · intro written
    simp only [ne_eq, same] at written
    have value := tallied.value written
    omega

theorem Tallied.advance
    {id : Fin m} {initValue : Int} {first state : SemState m n} {p : Fin n}
    {move : Move Call Unit} {pc : Pc m n}
    {owner : Lock m n → Option (Fin n)}
    (tallied : Tallied id initValue first state)
    (moves : Advance p state.shared (state.pc p) move pc) :
    Tallied id initValue first
      ⟨state.shared, owner, Function.update state.pc p pc⟩ := by
  rcases moves.harmless.writes id with ⟨before, after⟩
  have balances := balance_move id (moves.harmless.pending id) owner
  exact tallied.still rfl tallied.used (by rw [balances])
    (fun _ _ _ => balances) (fun w here => before (.inl ⟨w, here⟩))
    (fun w here => after (.inl ⟨w, here⟩))

theorem Tallied.apply
    {id : Fin m} {initValue : Int} {first state : SemState m n} {p : Fin n}
    {effect : Effect (Shared m n) (Lock m n) (Pc m n)}
    (tallied : Tallied id initValue first state) (owned : Owned state)
    (blank : Blank id state) (timely : Timely state (p, .go ()))
    (kept : state.pc p ≠ .freeTest id)
    (ran : (state.pc p).body p state.shared = some effect) :
    Tallied id initValue first (Program.apply state p effect) := by
  have balances := balance_apply id ran
  have used := (Pc.slotStep id ran).used tallied.used kept
  have shared : (Program.apply state p effect).shared = effect.shared := rfl
  cases Pc.slotStep id ran with
  | keep same before created goto tested raised =>
      simp only [Pc.Writes, not_or, not_exists] at before
      rw [if_neg before.2.2.2, if_neg before.2.2.1, add_zero] at balances
      exact tallied.still rfl used (by rw [shared, same, balances])
        (fun _ _ _ => balances) before.1 (fun w => (goto w).1)
  | take w unused before after goto => simp [tallied.used] at unused
  | value w before after goto =>
      have argument := tallied.argument p w before
      have balanced := tallied.unwritten p w before
      simp only [before, reduceCtorEq, if_false, add_zero] at balances
      have alone : ∀ q v, (Program.apply state p effect).pc q ≠
          .createValue v id := by
        intro q v writing
        rw [apply_pc] at writing
        split at writing
        · simp [goto] at writing
        · rename_i other
          exact other (sole_creator owned writing before)
      constructor
      · exact used
      · exact fun q v writing => absurd writing (alone q v)
      · exact fun q v writing => absurd writing (alone q v)
      · intro _
        rw [shared, after, balances, balanced, argument]
        dsimp only
        omega
  | init w before after goto =>
      simp only [before, reduceCtorEq, if_false, add_zero] at balances
      exact tallied.still rfl used (by rw [shared, after, balances])
        (fun _ _ _ => balances) (by simp [before]) (by simp [goto])
  | free equal before after goto => exact absurd before kept
  | down before after goto =>
      simp only [before, reduceCtorEq, if_false, if_true] at balances
      refine tallied.still rfl used ?_ ?_ (by simp [before]) (by simp [goto])
      · rw [shared, after, balances]
        dsimp only
        omega
      · intro q w writing
        exact absurd before ((blank.taken q w writing).2 p).2
  | up before after goto =>
      simp only [before, if_true] at balances
      refine tallied.still rfl used ?_ ?_ (by simp [before]) (by simp [goto])
      · rw [shared, after, balances]
        dsimp only
        omega
      · intro q w writing
        exact absurd rfl (timely.up id before q (id, w)
          (by simp [writing, Pc.writesValue]))

theorem tallied_of_reachable
    {id : Fin m} {initValue : Int} {first state : SemState m n}
    (begun : (timelyRuns m n).Reachable first)
    (creator : ∃ p, first.pc p = .createValue initValue id)
    (reached : ((timelyRuns m n).startingAt first).Reachable state) :
    Tallied id initValue first state := by
  refine reached.invariant (Tallied id initValue first) ?_ ?_
  · rintro state rfl
    rcases creator with ⟨p, creating⟩
    have everywhere := begun.of_guarded.of_guarded
    have owned := owned_of_reachable everywhere
    constructor
    · exact used_of_creates everywhere (by rw [creating]; rfl)
    · intro q w writing
      rw [sole_creator owned writing creating, creating] at writing
      cases writing
      rfl
    · exact fun _ _ _ => rfl
    · exact fun written => absurd creating (written p initValue)
  · rintro state label next before tallied ⟨timely, -, taken⟩
    have run := begun.of_startingAt before
    cases semStep_of_exec taken with
    | advance p move pc owner moves => exact tallied.advance moves
    | body p choice effect asks ran =>
        refine tallied.apply (owned_of_reachable run.of_guarded.of_guarded)
          (blank_of_reachable run id) timely ?_ ran
        intro freeing
        have outside := inFree_of_reachable run.of_guarded p
        simp [freeing, Pc.inFree] at outside

/--
`sem_create` with argument `initValue`, which has taken the slot in `first`, is
atomic towards the calls on the slot, as seen in `state`.
-/
structure CreationLaw (id : Fin m) (initValue : Int)
    (first state : SemState m n) : Prop where
  value : state.owner (.sem id) = none →
    (state.shared.sems id).value =
      initValue + ∑ q, upsSince id first state q -
        ∑ q, downsSince id first state q
  awake : state.owner (.sem id) = none → 0 < (state.shared.sems id).value →
    NoneAsleep id state

/--
In every run of `sem_create`, `sem_up` and `sem_down` on any ids whose steps
meet the condition: once `sem_create` has returned a slot, its value is the
argument plus the completed `sem_up` calls minus the completed `sem_down` calls
since the slot was taken, and nobody sleeps on it while it has units, whenever
its lock is free.
-/
theorem creationLaw_of_timely
    {id : Fin m} {initValue : Int} {first state : SemState m n}
    (begun : (timelyRuns m n).Reachable first)
    (creator : ∃ p, first.pc p = .createValue initValue id)
    (reached : ((timelyRuns m n).startingAt first).Reachable state)
    (returned : ∀ q, (state.pc q).creates ≠ some id) :
    CreationLaw id initValue first state := by
  have run := begun.of_startingAt reached
  have everywhere := run.of_guarded.of_guarded
  have owned := owned_of_reachable everywhere
  have still : ∀ q, (first.pc q).pending id = 0 := by
    rcases creator with ⟨p, creating⟩
    intro q
    exact (((blank_of_reachable begun id).taken p _ creating).2 q).1
  have value := (tallied_of_reachable begun creator reached).value
    fun q w writing => returned q (by rw [writing]; rfl)
  have balances := balance_sub still state
  constructor
  · intro free
    have complete : ∑ q, (state.pc q).pending id = 0 := by
      apply sum_pending_eq_zero owned
      intro q held
      rw [free] at held
      cases held
    omega
  · intro free positive
    exact ((attended_of_reachable run id).noneAsleep owned
      (parked_of_reachable everywhere) free positive).1

/-- A step that starts no `sem_free`. -/
def unfreedStep (state : SemState m n) (label : SemLabel n) :
    Option (SemState m n) :=
  if ∀ routine ∈ label.2.routine, routine.isFree = false then
    (semProgram m n).exec state label
  else
    none

theorem unfreedStep_sound
    (state : SemState m n) (label : SemLabel n) (next : SemState m n)
    (taken : unfreedStep state label = some next) :
    (unfreed m n).step state label next := by
  unfold unfreedStep at taken
  split at taken
  · rename_i condition
    exact ⟨condition, taken⟩
  · cases taken

/-- A step that starts no `sem_free` and meets the condition. -/
def timelyStep (state : SemState m n) (label : SemLabel n) :
    Option (SemState m n) :=
  if Timely state label then unfreedStep state label else none

theorem timelyStep_sound
    (state : SemState m n) (label : SemLabel n) (next : SemState m n)
    (taken : timelyStep state label = some next) :
    (timelyRuns m n).step state label next := by
  unfold timelyStep at taken
  split at taken
  · rename_i timely
    exact ⟨timely, unfreedStep_sound state label next taken⟩
  · cases taken

/-- The creator has taken a slot, the user has passed its check. -/
def guessed : SemState 1 2 :=
  (List.foldlM timelyStep booted
    ((creator, .call (.semCreate 2)) :: goOn creator 2 ++
      (user, .call (.semUp onlySlot)) :: goOn user 2)).get (by decide)

/-- `sem_create` has returned, and then the user gave its unit. -/
def guessedLate : SemState 1 2 :=
  (List.foldlM timelyStep guessed (goOn creator 3 ++ goOn user 6)).get
    (by decide)

theorem creationLaw_of_timely_guessed :
    (guessedLate.shared.sems 0).value = 3 ∧
      CreationLaw 0 2 guessed guessedLate := by
  have begun : (timelyRuns 1 2).Reachable guessed :=
    System.Reachable.of_run timelyStep_sound (.start starts_booted)
      (Option.some_get _).symm
  have reached :
      ((timelyRuns 1 2).startingAt guessed).Reachable guessedLate := by
    refine System.Reachable.of_run ?_ (.start rfl) (Option.some_get _).symm
    exact timelyStep_sound
  exact ⟨by decide,
    creationLaw_of_timely begun ⟨0, by decide⟩ reached (by decide)⟩

/-- The creator has taken a slot for a semaphore of one unit. -/
def takenForUnit : SemState 1 2 :=
  (List.foldlM unfreedStep booted
    ((creator, .call (.semCreate 1)) :: goOn creator 2)).get (by decide)

/--
The user guesses the id and gives a unit before `sem_create` has written the
value.
-/
def unitLost : SemState 1 2 :=
  (List.foldlM unfreedStep takenForUnit
    ((user, .call (.semUp onlySlot)) :: goOn user 8 ++ goOn creator 3)).get
    (by decide)

/-- `sem_create` overwrites the unit of a `sem_up` that returned 0. -/
theorem create_loses_unit :
    ¬ ∀ (m n : Nat) (id : Fin m) (initValue : Int) (first state : SemState m n),
      (unfreed m n).Reachable first →
        (∃ p, first.pc p = .createValue initValue id) →
          ((unfreed m n).startingAt first).Reachable state →
            (∀ q, (state.pc q).creates ≠ some id) →
              CreationLaw id initValue first state := by
  intro law
  have begun : (unfreed 1 2).Reachable takenForUnit :=
    System.Reachable.of_run unfreedStep_sound (.start starts_booted)
      (Option.some_get _).symm
  have reached :
      ((unfreed 1 2).startingAt takenForUnit).Reachable unitLost := by
    refine System.Reachable.of_run ?_ (.start rfl) (Option.some_get _).symm
    exact unfreedStep_sound
  have value := (law 1 2 0 1 takenForUnit unitLost begun ⟨0, by decide⟩ reached
    (by decide)).value (by decide)
  revert value
  decide

end OSCourse.Semaphore
