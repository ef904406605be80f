import OSCourse.Semaphore.Counting

/-!
# Taking and freeing slots

`sem_create` scans the slots under the array lock and takes the first one that
is not in use, and `sem_free` gives slots back under the same lock.  So what a
process has read of the slots stays true until it returns, and the takings and
the freeings of a slot alternate in every run.
-/

namespace OSCourse.Semaphore

open OSCourse.Library.LockProgram
open OSCourse.Library.TransitionSystem

variable {m n : Nat}

/-! ## What a process knows under the array lock -/

/-- The process has seen or made the slot in use since it took the array
lock. -/
def Pc.Knows (slot : Fin m) : Pc m n → Prop
  | .createScan _ i => slot < i
  | .createValue _ id => slot ≤ id
  | .createInit _ id => slot ≤ id
  | .createReturn (some id) => slot ≤ id
  | .createReturn none => True
  | .freeAcquireSem id => slot = id
  | .freeTest id => slot = id
  | _ => False

theorem Pc.array_of_knows {pc : Pc m n} {slot : Fin m} (p : Fin n)
    (knows : pc.Knows slot) : Lock.array ∈ pc.locks p := by
  cases pc <;> first | exact knows.elim | simp [Pc.locks]

/-- What a process knows after a step it knew before, or has just seen. -/
theorem Pc.knows_body {p : Fin n} {shared : Shared m n} {pc : Pc m n}
    {effect : Effect (Shared m n) (Lock m n) (Pc m n)} {slot : Fin m} :
    pc.body p shared = some effect → effect.pc.Knows slot →
      (effect.shared.sems slot).used = true ∨
        (pc.Knows slot ∧
          (effect.shared.sems slot).used = (shared.sems slot).used) := by
  fun_cases Pc.body p shared pc <;> rintro ⟨⟩ <;>
    grind [Pc.Knows]

/-- A step that changes no field teaches nothing. -/
theorem Advance.knows {p : Fin n} {shared : Shared m n} {pc pc' : Pc m n}
    {move : Move Call Unit} {slot : Fin m}
    (moves : Advance p shared pc move pc') (knows : pc'.Knows slot) :
    pc.Knows slot := by
  cases moves with
  | call routine idle =>
      have entry : Entry (routine.entry : Pc m n) := routine.isEntry
      generalize (routine.entry : Pc m n) = pc' at entry knows
      cases entry <;> exact knows.elim
  | acquire choice lock asks =>
      cases pc with
      | createAcquire initValue => exact absurd knows (Nat.not_lt_zero _)
      | freeAcquireSem id => exact knows
      | asleep id => exact knows.elim
      | wakeup id next =>
          rcases Option.map_eq_some_iff.mp asks with ⟨q, -, rfl⟩
          exact knows.elim
      | kill pid next =>
          rcases Option.map_eq_some_iff.mp asks with ⟨q, -, rfl⟩
          exact knows.elim
      | _ => cases asks <;> exact knows.elim

/-- Only `sem_free` and `sem_create` change whether a slot is in use. -/
theorem Pc.used_body {p : Fin n} {shared : Shared m n} {pc : Pc m n}
    {effect : Effect (Shared m n) (Lock m n) (Pc m n)} (slot : Fin m) :
    pc.body p shared = some effect →
      (effect.shared.sems slot).used = (shared.sems slot).used ∨
        (effect.shared.sems slot).used = true ∨ pc = .freeTest slot := by
  fun_cases Pc.body p shared pc <;> rintro ⟨⟩ <;> grind

/-- What processes know of the slots is so. -/
def Informed (state : SemState m n) : Prop :=
  ∀ p slot, (state.pc p).Knows slot → (state.shared.sems slot).used = true

theorem informed_of_reachable {state : SemState m n}
    (reached : (semSystem m n).Reachable state) : Informed state := by
  refine reached.invariant Informed ?_ ?_
  · rintro state ⟨-, -, outside⟩ p slot knows
    rw [outside] at knows
    exact knows.elim
  · intro state label next before informed taken
    have owned := owned_of_reachable before
    cases semStep_of_exec taken with
    | advance p move pc owner moves =>
        intro q slot knows
        by_cases same : q = p
        · subst same
          exact informed q slot (moves.knows (by simpa using knows))
        · exact informed q slot
            (by simpa [Function.update_of_ne same] using knows)
    | body p choice effect asks ran =>
        intro q slot knows
        by_cases same : q = p
        · subst same
          simp only [Program.apply, Function.update_self] at knows ⊢
          rcases Pc.knows_body ran knows with now | ⟨knew, kept⟩
          · exact now
          · exact kept.trans (informed q slot knew)
        · simp only [Program.apply, Function.update_of_ne same] at knows ⊢
          rcases Pc.used_body slot ran with kept | now | freeing
          · exact kept.trans (informed q slot knows)
          · exact now
          · exact absurd (owned.unique (Pc.array_of_knows q knows)
              (by simp [freeing, Pc.locks])) same

/-! ## Takings and freeings -/

/-- The slot that a scan of `sem_create` is at. -/
def Pc.scans : Pc m n → Option Nat
  | .createScan _ i => some i
  | _ => none

/-- The step takes the slot. -/
def Takes (id : Fin m) (state : SemState m n) (label : SemLabel n) : Prop :=
  (state.pc label.1).scans = some id.val ∧ (state.shared.sems id).used = false

instance (id : Fin m) (state : SemState m n) (label : SemLabel n) :
    Decidable (Takes id state label) :=
  inferInstanceAs (Decidable (_ ∧ _))

/-- A step between acquires takes a slot, frees one, or leaves them. -/
theorem Pc.slots_body {p : Fin n} {shared : Shared m n} {pc : Pc m n}
    {effect : Effect (Shared m n) (Lock m n) (Pc m n)} (id : Fin m) :
    pc.body p shared = some effect →
      (effect.shared.sems id).used =
        if pc.scans = some id.val ∧ (shared.sems id).used = false then true
        else if pc = .freeTest id ∧
          (shared.sems id).value = (shared.sems id).initValue then false
        else (shared.sems id).used := by
  fun_cases Pc.body p shared pc <;> rintro ⟨⟩ <;>
    grind [Pc.scans]

/-- A process that acquires a lock neither takes nor frees a slot. -/
theorem Advance.not_scans {p : Fin n} {shared : Shared m n}
    {pc pc' : Pc m n} {move : Move Call Unit}
    (moves : Advance p shared pc move pc') :
    pc.scans = none ∧ ∀ id, pc ≠ .freeTest id := by
  cases moves with
  | call routine idle =>
      subst idle
      exact ⟨rfl, fun id => by simp⟩
  | acquire choice lock asks =>
      cases pc <;> first | cases asks; done | exact ⟨rfl, fun id => by simp⟩

/-- Whether the slot is in use, as a number. -/
def occupied (state : SemState m n) (id : Fin m) : Nat :=
  if (state.shared.sems id).used then 1 else 0

theorem occupied_step {state next : SemState m n} {label : SemLabel n}
    (informed : Informed state) (id : Fin m)
    (taken : (semProgram m n).exec state label = some next) :
    (if Takes id state label then 1 else 0) + occupied state id =
      (if Frees id state label then 1 else 0) + occupied next id := by
  cases semStep_of_exec taken with
  | advance p move pc owner moves =>
      have still := moves.not_scans
      rw [if_neg fun takes => by simp [Takes, still.1] at takes,
        if_neg fun frees => still.2 id frees.1]
      rfl
  | body p choice effect asks ran =>
      have after : (effect.shared.sems id).used =
          if Takes id state (p, .go choice) then true
          else if Frees id state (p, .go choice) then false
          else (state.shared.sems id).used := Pc.slots_body id ran
      by_cases takes : Takes id state (p, .go choice)
      · have other : ¬ Frees id state (p, .go choice) := by
          rintro ⟨testing, _⟩
          have scanning := takes.1
          simp only at testing scanning
          rw [testing] at scanning
          cases scanning
        rw [if_pos takes, if_neg other]
        rw [if_pos takes] at after
        simp [occupied, Program.apply, after, takes.2]
      · rw [if_neg takes]
        rw [if_neg takes] at after
        by_cases frees : Frees id state (p, .go choice)
        · have used : (state.shared.sems id).used = true := by
            refine informed p id ?_
            rw [frees.1]
            rfl
          rw [if_pos frees]
          rw [if_pos frees] at after
          simp [occupied, Program.apply, after, used]
        · rw [if_neg frees]
          rw [if_neg frees] at after
          simp [occupied, Program.apply, after]

/-- How often a stretch takes the slot. -/
def takings (id : Fin m)
    (steps : List (Transition (SemState m n) (SemLabel n))) : Nat :=
  steps.countP fun step => decide (Takes id step.before step.label)

/-- How often a stretch frees the slot. -/
def freeings (id : Fin m)
    (steps : List (Transition (SemState m n) (SemLabel n))) : Nat :=
  steps.countP fun step => decide (Frees id step.before step.label)

theorem occupied_stretch {first last : SemState m n}
    {steps : List (Transition (SemState m n) (SemLabel n))}
    (stretch : (semSystem m n).Stretch first steps last)
    (reached : (semSystem m n).Reachable first) (id : Fin m) :
    takings id steps + occupied first id =
      freeings id steps + occupied last id := by
  induction stretch with
  | nil => rfl
  | cons taken _ induction =>
      have here := occupied_step (informed_of_reachable reached) id taken
      have rest := induction (reached.step taken)
      simp only [takings, freeings, List.countP_cons,
        decide_eq_true_eq] at rest ⊢
      omega

/-! ## The slots that are given out -/

/-- What a whole run does to the slots, and what `sem_create` returns. -/
structure SlotLaw (first : SemState m n)
    (steps : List (Transition (SemState m n) (SemLabel n)))
    (last : SemState m n) : Prop where
  /-- Takings and freeings of a slot alternate. -/
  alternate : ∀ id, takings id steps + occupied first id =
    freeings id steps + occupied last id
  /-- The first slot that is not in use is taken. -/
  lowest : ∀ step ∈ steps, ∀ id, Takes id step.before step.label →
    ∀ slot < id, (step.before.shared.sems slot).used = true
  /-- An id that is returned is in use, like all before it. -/
  returned : ∀ p id, last.pc p = .createReturn (some id) →
    ∀ slot ≤ id, (last.shared.sems slot).used = true
  /-- A `sem_create` that fails finds all slots in use until it returns. -/
  full : ∀ p, last.pc p = .createReturn none →
    ∀ slot, (last.shared.sems slot).used = true

/--
In every stretch of a run, whatever the processes do in between, a slot is
taken and freed in turns, `sem_create` takes the first slot that is not in use,
and when it returns, the slot is in use, or all slots are if it returns -1.
-/
theorem slotLaw {first last : SemState m n}
    {steps : List (Transition (SemState m n) (SemLabel n))}
    (reached : (semSystem m n).Reachable first)
    (stretch : (semSystem m n).Stretch first steps last) :
    SlotLaw first steps last := by
  have informed := informed_of_reachable (stretch.reachable reached)
  constructor
  case alternate => exact occupied_stretch stretch reached
  case lowest =>
    intro step member id takes slot less
    have before := (stretch.reachable_before reached step member).1
    refine informed_of_reachable before step.label.1 slot ?_
    have scanning := takes.1
    cases pc : step.before.pc step.label.1 with
    | createScan initValue i =>
        rw [pc] at scanning
        cases scanning
        exact less
    | _ =>
        rw [pc] at scanning
        cases scanning
  case returned =>
    intro p id returning slot below
    refine informed p slot ?_
    rw [returning]
    exact below
  case full =>
    intro p returning slot
    refine informed p slot ?_
    rw [returning]
    trivial

/-- The creator is in its scan. -/
def scanning : SemState 1 2 :=
  (List.foldlM (semProgram 1 2).exec booted
    [(creator, .call (.semCreate 1)), (creator, .go ())]).get (by decide)

/-- The slot is taken. -/
theorem slotLaw_oneUnit :
    takings 0 [⟨scanning, (creator, .go ()), oneUnit⟩] = 1 ∧
      SlotLaw scanning [⟨scanning, (creator, .go ()), oneUnit⟩] oneUnit := by
  have reached : (semSystem 1 2).Reachable scanning :=
    reachable_booted.of_run (fun _ _ _ taken => taken)
      (Option.some_get _).symm
  have taken : (semSystem 1 2).step scanning (creator, .go ()) oneUnit := by
    rfl
  exact ⟨by decide, slotLaw reached (.cons taken .nil)⟩

end OSCourse.Semaphore
