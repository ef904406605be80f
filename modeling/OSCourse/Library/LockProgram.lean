import Mathlib.Data.List.Nodup
import Mathlib.Logic.Function.Basic
import OSCourse.Library.TransitionSystem

/-!
# Programs cut at their lock operations

Agents that run routines over a shared state and spin on locks.  A routine is
cut into steps, each of which acquires one lock, or runs on and releases at most
one.  When every step tracks the locks that its program counter stands for, the
holders of the locks are those the program counters say.
-/

namespace OSCourse.Library.LockProgram

open OSCourse.Library.TransitionSystem

universe u

/-- What a step between two acquires comes to. -/
structure Effect (Shared Lock Pc : Type u) where
  shared : Shared
  released : Option Lock
  pc : Pc

/-- A program: its routines, its acquires, and the code between them. -/
structure Program (Agent Shared Lock Pc Call Choice : Type u) where
  outside : Pc
  enter : Call → Pc
  asks : Agent → Shared → Pc → Option Lock
  acquired : Lock → Pc → Pc
  body : Agent → Shared → Choice → Pc → Option (Effect Shared Lock Pc)

/-- The shared state, the holder of each lock, and the program counters. -/
structure State (Agent Shared Lock Pc : Type u) where
  shared : Shared
  owner : Lock → Option Agent
  pc : Agent → Pc

/-- An agent outside the routines starts one, or an agent goes on with its
own. -/
inductive Move (Call Choice : Type u) where
  | call (routine : Call)
  | go (choice : Choice)
deriving DecidableEq, Repr

/-- The routine that a move starts. -/
def Move.routine {Call Choice : Type u} : Move Call Choice → Option Call
  | .call routine => some routine
  | .go _ => none

/-! ## Loops over a table -/

/-- The entry at an index of a table of `n` entries. -/
def entryAt {n : Nat} (next : Nat) : Option (Fin n) :=
  if inside : next < n then some ⟨next, inside⟩ else none

theorem entryAt_eq_some {n next : Nat} {p : Fin n} :
    entryAt next = some p ↔ next = p := by
  unfold entryAt
  split
  · rename_i inside
    rw [Option.some.injEq, Fin.ext_iff]
  · rename_i outside
    constructor
    · rintro ⟨⟩
    · intro equal
      exact absurd (equal ▸ p.isLt) outside

theorem filter_entryAt_eq_some
    {n next : Nat} {p : Fin n} {condition : Fin n → Bool} :
    (entryAt next).filter condition = some p ↔
      next = p ∧ condition p = true := by
  rw [Option.filter_eq_some_iff, entryAt_eq_some]

/-! ## Steps -/

namespace Program

variable {Agent Shared Lock Pc Call Choice : Type u}
variable [DecidableEq Agent] [DecidableEq Lock] [DecidableEq Pc]
variable (program : Program Agent Shared Lock Pc Call Choice)

/-- An acquire waits until the lock is free. -/
def acquire (state : State Agent Shared Lock Pc) (agent : Agent)
    (lock : Lock) : Option (State Agent Shared Lock Pc) :=
  if state.owner lock = none then
    some
      { state with
        owner := Function.update state.owner lock (some agent)
        pc := Function.update state.pc agent
          (program.acquired lock (state.pc agent)) }
  else
    none

/-- The state after the effect of a step. -/
def apply (state : State Agent Shared Lock Pc) (agent : Agent)
    (effect : Effect Shared Lock Pc) : State Agent Shared Lock Pc where
  shared := effect.shared
  owner lock :=
    if effect.released = some lock then none else state.owner lock
  pc := Function.update state.pc agent effect.pc

/-- One step of one agent. -/
def exec (state : State Agent Shared Lock Pc) :
    Agent × Move Call Choice → Option (State Agent Shared Lock Pc)
  | (agent, .call routine) =>
      if state.pc agent = program.outside then
        some
          { state with
            pc := Function.update state.pc agent (program.enter routine) }
      else
        none
  | (agent, .go choice) =>
      match program.asks agent state.shared (state.pc agent) with
      | some lock => program.acquire state agent lock
      | none =>
          (program.body agent state.shared choice (state.pc agent)).map
            (apply state agent)

/--
The interleavings of the agents, from the states with a legal shared part in
which all locks are free and every agent is outside the routines.
-/
def system (legal : Shared → Prop) :
    System (State Agent Shared Lock Pc) (Agent × Move Call Choice) where
  start state :=
    legal state.shared ∧ (∀ lock, state.owner lock = none) ∧
      ∀ agent, state.pc agent = program.outside
  step state label next := program.exec state label = some next

/-- The steps of an agent: it starts a routine, acquires, or runs on. -/
inductive Step (state : State Agent Shared Lock Pc) :
    Agent × Move Call Choice → State Agent Shared Lock Pc → Prop where
  | call (agent : Agent) (routine : Call)
      (idle : state.pc agent = program.outside) :
      Step state (agent, .call routine)
        { state with
          pc := Function.update state.pc agent (program.enter routine) }
  | acquire (agent : Agent) (choice : Choice) (lock : Lock)
      (asks : program.asks agent state.shared (state.pc agent) = some lock)
      (free : state.owner lock = none) :
      Step state (agent, .go choice)
        { state with
          owner := Function.update state.owner lock (some agent)
          pc := Function.update state.pc agent
            (program.acquired lock (state.pc agent)) }
  | body (agent : Agent) (choice : Choice) (effect : Effect Shared Lock Pc)
      (asks : program.asks agent state.shared (state.pc agent) = none)
      (ran : program.body agent state.shared choice (state.pc agent) =
        some effect) :
      Step state (agent, .go choice) (apply state agent effect)

variable {program}

theorem step_of_exec
    {state next : State Agent Shared Lock Pc}
    {label : Agent × Move Call Choice}
    (taken : program.exec state label = some next) :
    program.Step state label next := by
  rcases label with ⟨agent, move⟩
  cases move with
  | call routine =>
      simp only [exec] at taken
      split at taken
      · rename_i idle
        cases taken
        exact .call agent routine idle
      · cases taken
  | go choice =>
      simp only [exec] at taken
      split at taken
      · rename_i lock asks
        unfold acquire at taken
        split at taken
        · rename_i free
          cases taken
          exact .acquire agent choice lock asks free
        · cases taken
      · rename_i asks
        rw [Option.map_eq_some_iff] at taken
        rcases taken with ⟨effect, ran, rfl⟩
        exact .body agent choice effect asks ran

theorem exec_of_step
    {state next : State Agent Shared Lock Pc}
    {label : Agent × Move Call Choice}
    (taken : program.Step state label next) :
    program.exec state label = some next := by
  cases taken with
  | call agent routine idle => simp only [exec, idle, if_true]
  | acquire agent choice lock asks free =>
      simp only [exec, asks, acquire, free, if_true]
  | body agent choice effect asks ran =>
      simp only [exec, asks, ran, Option.map_some]

/-- An agent that asks for no lock runs the code of its place. -/
theorem body_of_exec
    {state next : State Agent Shared Lock Pc} {agent : Agent}
    {choice : Choice}
    (quiet : program.asks agent state.shared (state.pc agent) = none)
    (taken : program.exec state (agent, .go choice) = some next) :
    ∃ effect,
      program.body agent state.shared choice (state.pc agent) = some effect ∧
        apply state agent effect = next := by
  simp only [exec, quiet] at taken
  exact Option.map_eq_some_iff.mp taken

/-! ## Ownership -/

/-- The steps of the program do to the locks what `locks` says. -/
structure Tracks (program : Program Agent Shared Lock Pc Call Choice)
    (locks : Agent → Pc → List Lock) : Prop where
  outside : ∀ agent, locks agent program.outside = []
  enter : ∀ agent routine, locks agent (program.enter routine) = []
  acquired : ∀ {agent shared pc lock},
    program.asks agent shared pc = some lock →
      locks agent (program.acquired lock pc) = lock :: locks agent pc
  body : ∀ {agent shared choice pc effect},
    (locks agent pc).Nodup → program.asks agent shared pc = none →
      program.body agent shared choice pc = some effect →
        (locks agent effect.pc).Nodup ∧
          (∀ lock, lock ∈ locks agent effect.pc ↔
            lock ∈ locks agent pc ∧ effect.released ≠ some lock) ∧
          ∀ lock, effect.released = some lock → lock ∈ locks agent pc

/-- The holders of the locks are those the program counters say. -/
structure Owned (locks : Agent → Pc → List Lock)
    (state : State Agent Shared Lock Pc) : Prop where
  owner : ∀ agent lock,
    state.owner lock = some agent ↔ lock ∈ locks agent (state.pc agent)
  nodup : ∀ agent, (locks agent (state.pc agent)).Nodup

variable {locks : Agent → Pc → List Lock}

omit [DecidableEq Agent] [DecidableEq Lock] [DecidableEq Pc] in
/-- Two agents that hold the same lock are the same. -/
theorem Owned.unique
    {state : State Agent Shared Lock Pc} (owned : Owned locks state)
    {first second : Agent} {lock : Lock}
    (holdsFirst : lock ∈ locks first (state.pc first))
    (holdsSecond : lock ∈ locks second (state.pc second)) :
    first = second := by
  have ownsFirst := (owned.owner first lock).mpr holdsFirst
  have ownsSecond := (owned.owner second lock).mpr holdsSecond
  rw [ownsFirst, Option.some.injEq] at ownsSecond
  exact ownsSecond

omit [DecidableEq Pc] in
theorem Owned.step
    {state next : State Agent Shared Lock Pc}
    {label : Agent × Move Call Choice}
    (tracks : program.Tracks locks) (owned : Owned locks state)
    (taken : program.Step state label next) :
    Owned locks next := by
  cases taken with
  | call agent routine idle =>
      constructor
      · intro other lock
        rw [owned.owner other lock]
        by_cases same : other = agent
        · subst same
          simp only [idle, Function.update_self, tracks.outside, tracks.enter]
        · simp only [Function.update_of_ne same]
      · intro other
        by_cases same : other = agent
        · subst same
          simp [tracks.enter]
        · simpa [Function.update_of_ne same] using owned.nodup other
  | acquire agent choice lock asks free =>
      have fresh : ∀ other, lock ∉ locks other (state.pc other) := by
        intro other held
        rw [← owned.owner, free] at held
        cases held
      constructor
      · intro other held
        by_cases same : other = agent
        · subst same
          simp only [Function.update_self, tracks.acquired asks,
            List.mem_cons]
          by_cases equal : held = lock
          · simp [equal]
          · simp [equal, owned.owner]
        · simp only [Function.update_of_ne same]
          by_cases equal : held = lock
          · subst equal
            simp [fresh other, Ne.symm same]
          · simp [Function.update_of_ne equal, owned.owner]
      · intro other
        by_cases same : other = agent
        · subst same
          simp only [Function.update_self, tracks.acquired asks,
            List.nodup_cons]
          exact ⟨fresh _, owned.nodup _⟩
        · simpa [Function.update_of_ne same] using owned.nodup other
  | body agent choice effect asks ran =>
      rcases tracks.body (owned.nodup agent) asks ran with
        ⟨nodup, remaining, released⟩
      constructor
      · intro other lock
        simp only [apply]
        by_cases same : other = agent
        · subst same
          simp only [Function.update_self, remaining lock, ← owned.owner]
          by_cases free : effect.released = some lock <;> simp [free]
        · simp only [Function.update_of_ne same, ← owned.owner]
          by_cases free : effect.released = some lock
          · have mine : state.owner lock = some agent :=
              (owned.owner _ _).mpr (released lock free)
            simp [free, mine, Ne.symm same]
          · simp [free]
      · intro other
        simp only [apply]
        by_cases same : other = agent
        · subst same
          simpa using nodup
        · simpa [Function.update_of_ne same] using owned.nodup other

theorem owned_of_reachable
    {legal : Shared → Prop} {state : State Agent Shared Lock Pc}
    (tracks : program.Tracks locks)
    (reached : (program.system legal).Reachable state) :
    Owned locks state := by
  refine reached.invariant (Owned locks) ?_ ?_
  · rintro state ⟨-, free, idle⟩
    constructor
    · intro agent lock
      simp [free, idle, tracks.outside]
    · intro agent
      simp [idle, tracks.outside]
  · intro state label next _ owned taken
    exact owned.step tracks (step_of_exec taken)

end Program

end OSCourse.Library.LockProgram
