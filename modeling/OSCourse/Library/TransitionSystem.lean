import Mathlib.Logic.Relation

/-!
# Labelled transition systems

Reachable states, the invariant rule, the restriction of a system to steps that
meet a condition on the state before the step and on its label, the simulation
of one system by another, stretches of runs as lists of steps, and continuations
that reach a final state.
-/

namespace OSCourse.Library.TransitionSystem

universe u v

/-- A labelled transition system with its start states. -/
structure System (State : Type u) (Label : Type v) where
  start : State → Prop
  step : State → Label → State → Prop

namespace System

variable {State : Type u} {Label : Type v}

/-- The states of the runs of a system. -/
inductive Reachable (system : System State Label) : State → Prop where
  | start {state : State} (initial : system.start state) :
      Reachable system state
  | step {state next : State} {label : Label}
      (reached : Reachable system state)
      (taken : system.step state label next) :
      Reachable system next

/--
A property of the start states that every step from a reachable state keeps
holds in every reachable state.
-/
theorem Reachable.invariant
    {system : System State Label} (property : State → Prop)
    (initial : ∀ state, system.start state → property state)
    (preserved : ∀ state label next,
      system.Reachable state → property state →
        system.step state label next → property next)
    {state : State} (reached : system.Reachable state) :
    property state := by
  induction reached with
  | start begin => exact initial _ begin
  | step before taken induction =>
      exact preserved _ _ _ before induction taken

/-- The states a partial step function leads to are reachable. -/
theorem Reachable.of_run
    {system : System State Label} {exec : State → Label → Option State}
    (sound : ∀ state label next,
      exec state label = some next → system.step state label next)
    {state last : State} (reached : system.Reachable state)
    {labels : List Label} (run : labels.foldlM exec state = some last) :
    system.Reachable last := by
  induction labels generalizing state with
  | nil =>
      cases run
      exact reached
  | cons label rest induction =>
      rw [List.foldlM_cons, Option.bind_eq_bind,
        Option.bind_eq_some_iff] at run
      rcases run with ⟨next, taken, run⟩
      exact induction (reached.step (sound _ _ _ taken)) run

/-- The system whose steps all meet `guard`. -/
def guarded (system : System State Label)
    (guard : State → Label → Prop) : System State Label where
  start := system.start
  step state label next := guard state label ∧ system.step state label next

/-- A run that meets a condition is a run. -/
theorem Reachable.of_guarded
    {system : System State Label} {guard : State → Label → Prop}
    {state : State} (reached : (system.guarded guard).Reachable state) :
    system.Reachable state := by
  induction reached with
  | start initial => exact .start initial
  | step _ taken induction => exact .step induction taken.2

/-- The system started in one given state. -/
def startingAt (system : System State Label) (first : State) :
    System State Label where
  start state := state = first
  step := system.step

/-- A run from a reachable state goes through reachable states. -/
theorem Reachable.of_startingAt
    {system : System State Label} {first state : State}
    (reachedFirst : system.Reachable first)
    (reached : (system.startingAt first).Reachable state) :
    system.Reachable state := by
  induction reached with
  | start initial =>
      cases initial
      exact reachedFirst
  | step _ taken induction => exact .step induction taken

/--
Where each step is matched by a step of another system, or by none, each
reachable state is related to a reachable state of the other system.
-/
theorem Reachable.simulated
    {Abstract : Type*} {Action : Type*} {system : System State Label}
    {specification : System Abstract Action}
    (related : State → Abstract → Prop)
    (starts : ∀ state, system.start state →
      ∃ abstract, specification.start abstract ∧ related state abstract)
    (steps : ∀ state label next abstract,
      related state abstract → system.step state label next →
        related next abstract ∨
          ∃ action after, specification.step abstract action after ∧
            related next after)
    {state : State} (reached : system.Reachable state) :
    ∃ abstract, specification.Reachable abstract ∧
      related state abstract := by
  induction reached with
  | start initial =>
      rcases starts _ initial with ⟨abstract, begin, relation⟩
      exact ⟨abstract, .start begin, relation⟩
  | step _ taken induction =>
      rcases induction with ⟨abstract, reached, relation⟩
      rcases steps _ _ _ _ relation taken with kept | ⟨_, after, step, kept⟩
      · exact ⟨abstract, reached, kept⟩
      · exact ⟨after, reached.step step, kept⟩

end System

/-! ## Stretches of a run -/

/-- One step of a run, with the states before and after it. -/
structure Transition (State : Type u) (Label : Type v) where
  before : State
  label : Label
  after : State

namespace System

variable {State : Type u} {Label : Type v}

/-- The steps that lead from one state to another. -/
inductive Stretch (system : System State Label) :
    State → List (Transition State Label) → State → Prop where
  | nil {state : State} : Stretch system state [] state
  | cons {state next last : State} {label : Label}
      {rest : List (Transition State Label)}
      (taken : system.step state label next)
      (following : Stretch system next rest last) :
      Stretch system state (⟨state, label, next⟩ :: rest) last

/-- The states that a partial step function goes through are a stretch. -/
theorem Stretch.of_run
    {system : System State Label} {exec : State → Label → Option State}
    (sound : ∀ state label next,
      exec state label = some next → system.step state label next)
    {labels : List Label} {first last : State}
    (run : labels.foldlM exec first = some last) :
    ∃ steps : List (Transition State Label),
      steps.map Transition.label = labels ∧
        system.Stretch first steps last := by
  induction labels generalizing first with
  | nil =>
      cases run
      exact ⟨[], rfl, .nil⟩
  | cons label rest induction =>
      rw [List.foldlM_cons, Option.bind_eq_bind,
        Option.bind_eq_some_iff] at run
      rcases run with ⟨next, taken, run⟩
      rcases induction run with ⟨steps, labels, following⟩
      exact ⟨⟨first, label, next⟩ :: steps, congrArg (label :: ·) labels,
        .cons (sound _ _ _ taken) following⟩

/-- A stretch whose steps all meet a condition is a stretch. -/
theorem Stretch.of_guarded
    {system : System State Label} {guard : State → Label → Prop}
    {first last : State} {steps : List (Transition State Label)}
    (stretch : (system.guarded guard).Stretch first steps last) :
    system.Stretch first steps last := by
  induction stretch with
  | nil => exact .nil
  | cons taken _ induction => exact .cons taken.2 induction

/-- Every step of a stretch from a reachable state is a step from a reachable
state. -/
theorem Stretch.reachable_before
    {system : System State Label} {first last : State}
    {steps : List (Transition State Label)}
    (stretch : system.Stretch first steps last)
    (reached : system.Reachable first) :
    ∀ step ∈ steps, system.Reachable step.before ∧
      system.step step.before step.label step.after := by
  induction stretch with
  | nil => simp
  | cons taken _ induction =>
      intro step member
      rcases List.mem_cons.mp member with rfl | later
      · exact ⟨reached, taken⟩
      · exact induction (reached.step taken) step later

/-- Where every step lowers a measure, a run takes no more steps than the
measure at its start. -/
theorem Stretch.length_add_le
    {system : System State Label} {first last : State}
    {steps : List (Transition State Label)} (measure : State → Nat)
    (lowers : ∀ state label next, system.Reachable state →
      system.step state label next → measure next < measure state)
    (stretch : system.Stretch first steps last)
    (reached : system.Reachable first) :
    steps.length + measure last ≤ measure first := by
  induction stretch with
  | nil => simp
  | cons taken _ induction =>
      have lower := lowers _ _ _ reached taken
      have rest := induction (reached.step taken)
      rw [List.length_cons]
      omega

theorem Stretch.reachable
    {system : System State Label} {first last : State}
    {steps : List (Transition State Label)}
    (stretch : system.Stretch first steps last)
    (reached : system.Reachable first) :
    system.Reachable last := by
  induction stretch with
  | nil => exact reached
  | cons taken _ induction => exact induction (reached.step taken)

/-- What holds of the first state and after every step holds of the last. -/
theorem Stretch.last_of_all
    {system : System State Label} {first last : State}
    {steps : List (Transition State Label)}
    (stretch : system.Stretch first steps last) (property : State → Prop)
    (initial : property first)
    (later : ∀ step ∈ steps, property step.after) : property last := by
  induction stretch with
  | nil => exact initial
  | cons _ _ induction =>
      rcases List.forall_mem_cons.mp later with ⟨here, later⟩
      exact induction here later

/-! ## Continuations -/

/-- A finite run leads from one state to another. -/
def Leads (system : System State Label) : State → State → Prop :=
  Relation.ReflTransGen fun state next =>
    ∃ label, system.step state label next

theorem Leads.single {system : System State Label} {state next : State}
    {label : Label} (taken : system.step state label next) :
    system.Leads state next :=
  Relation.ReflTransGen.single ⟨label, taken⟩

/--
Where every state that is not final has a run to a state of smaller measure,
every state has a run to a final one.
-/
theorem leads_of_measure
    {system : System State Label} (good : Nat → State → Prop)
    {final : State → Prop}
    (progress : ∀ measure state, good measure state → final state ∨
      ∃ smaller < measure, ∃ next, system.Leads state next ∧
        good smaller next)
    {measure : Nat} {state : State} (holds : good measure state) :
    ∃ last, system.Leads state last ∧ final last := by
  induction measure using Nat.strongRecOn generalizing state with
  | ind measure induction =>
      rcases progress measure state holds with
        ended | ⟨smaller, less, next, leads, kept⟩
      · exact ⟨state, .refl, ended⟩
      · rcases induction smaller less kept with ⟨last, rest, ended⟩
        exact ⟨last, leads.trans rest, ended⟩

end System

end OSCourse.Library.TransitionSystem
