import Mathlib.Data.Fintype.Card
import OSCourse.LockFile.Writers

/-!
# The lock file excludes

In every run at most one child is between its successful `open` of the lock
file and its `unlink`, and from the first `unlink` of the parent on the file
exists exactly while there is such a child.  When the parent removes the file
again, it has waited for every child.
-/

namespace OSCourse.LockFile

open OSCourse.Library.Blocks
open OSCourse.Library.TransitionSystem

variable {n : Nat}

/-! ## What the parent has waited for -/

/-- A child before its `fork`, until the parent has waited for it, and after. -/
inductive Stage where
  | unborn
  | alive
  | gone
deriving DecidableEq, Repr

def Phase.stage : Phase → Stage
  | .absent => .unborn
  | .reaped _ => .gone
  | _ => .alive

theorem Phase.isProcess_eq_false {phase : Phase}
    (none : phase.isProcess = false) :
    phase.stage = .unborn ∨ phase.stage = .gone := by
  cases phase with
  | absent => exact .inl rfl
  | reaped _ => exact .inr rfl
  | _ => cases none

/-- The stages of all children. -/
def State.stage (state : State n) (i : Fin n) : Stage :=
  (state.child i).phase.stage

/-- The children that the parent has waited for. -/
def goneChildren (stage : Fin n → Stage) : Finset (Fin n) :=
  Finset.univ.filter fun i => stage i = .gone

@[simp]
theorem mem_goneChildren {stage : Fin n → Stage} {i : Fin n} :
    i ∈ goneChildren stage ↔ stage i = .gone := by
  simp [goneChildren]

/-- Where the parent is agrees with the stages of its children. -/
structure Counted (parent : Parent) (stage : Fin n → Stage) : Prop where
  unlinking : parent = .unlinking → ∀ i, stage i = .unborn
  forking : ∀ m, parent = .forking m → m < n ∧
    ∀ i : Fin n, stage i = if i < m then .alive else .unborn
  waiting : ∀ m, parent = .waiting m → m < n ∧
    (∀ i, stage i ≠ .unborn) ∧ (goneChildren stage).card = m
  cleaned : parent = .cleaning ∨ parent = .finished 0 →
    ∀ i, stage i = .gone

/-- The parent left the loop of forks early. -/
theorem counted_failed (stage : Fin n → Stage) :
    Counted (.finished 1) stage := by
  constructor <;> simp

theorem counted_cleaned {parent : Parent} {stage : Fin n → Stage}
    (last : parent = .cleaning ∨ parent = .finished 0)
    (all : ∀ i, stage i = .gone) : Counted parent stage := by
  constructor
  case unlinking => rcases last with rfl | rfl <;> simp
  case forking => rcases last with rfl | rfl <;> simp
  case waiting => rcases last with rfl | rfl <;> simp
  case cleaned => exact fun _ => all

theorem counted_nextWait {m : Nat} {stage : Fin n → Stage}
    (born : ∀ i, stage i ≠ .unborn)
    (waited : (goneChildren stage).card = m) :
    Counted (nextWait n m) stage := by
  unfold nextWait
  split
  · rename_i more
    constructor
    case unlinking => simp
    case forking => simp
    case waiting =>
      rintro _ ⟨⟩
      exact ⟨more, born, waited⟩
    case cleaned => simp
  · rename_i ended
    apply counted_cleaned (.inl rfl)
    have all : goneChildren stage = Finset.univ := by
      apply Finset.eq_univ_of_card
      have bound := Finset.card_le_univ (goneChildren stage)
      rw [Fintype.card_fin] at bound ⊢
      omega
    intro i
    have member := Finset.mem_univ i
    rw [← all] at member
    exact mem_goneChildren.mp member

theorem counted_nextFork {m : Nat} {stage : Fin n → Stage}
    (bound : m ≤ n)
    (forked : ∀ i : Fin n, stage i = if i < m then .alive else .unborn) :
    Counted (nextFork n m) stage := by
  unfold nextFork
  split
  · rename_i more
    constructor
    case unlinking => simp
    case forking =>
      rintro _ ⟨⟩
      exact ⟨more, forked⟩
    case waiting => simp
    case cleaned => simp
  · rename_i ended
    have alive : ∀ i, stage i = .alive := by
      intro i
      rw [forked i, if_pos]
      have := i.isLt
      omega
    apply counted_nextWait
    · simp [alive]
    · simp [goneChildren, alive]

/-- A step of a child keeps its stage. -/
theorem stage_setChild {state : State n} {i : Fin n} {child : Child}
    (same : child.phase.stage = (state.child i).phase.stage) :
    (state.setChild i child).stage = state.stage := by
  funext j
  unfold State.stage State.setChild
  by_cases equal : j = i
  · subst equal
    simpa using same
  · simp [Function.update_of_ne equal]

theorem counted_taken
    {arguments : Arguments n} {stdout : Stdout} {state next : State n}
    (counted : Counted state.parent state.stage)
    (taken : Taken arguments stdout state next) :
    Counted next.parent next.stage := by
  have alive : ∀ {i : Fin n} {phase : Phase} {child : Child},
      (state.child i).phase = phase → phase.stage = .alive →
        child.phase.stage = .alive →
          (state.setChild i child).stage = state.stage := by
    intro i phase child here before after
    exact stage_setChild (by rw [here, before, after])
  cases taken with
  | unlinkFirst parent =>
      apply counted_nextFork (Nat.zero_le n)
      intro i
      exact counted.unlinking parent i
  | unlinkLast parent =>
      exact counted_cleaned (.inr rfl) (counted.cleaned (.inl parent))
  | fork i parent =>
      rcases counted.forking _ parent with ⟨_, forked⟩
      apply counted_nextFork i.isLt
      intro j
      show (Function.update state.child i _ j).phase.stage = _
      by_cases equal : j = i
      · subst equal
        simp [Phase.stage]
      · rw [Function.update_of_ne equal]
        have apart : (j : Nat) ≠ i := fun same => equal (Fin.ext same)
        refine (forked j).trans ?_
        congr 1
        rw [eq_iff_iff]
        omega
  | forkFails child parent => exact counted_failed _
  | wait i how child parent phase =>
      rcases counted.waiting _ parent with ⟨_, born, waited⟩
      apply counted_nextWait
      · intro j
        show (Function.update state.child i _ j).phase.stage ≠ _
        by_cases equal : j = i
        · subst equal
          simp [Phase.stage]
        · rw [Function.update_of_ne equal]
          exact born j
      · have grown : goneChildren (state.setChild i
            { state.child i with phase := .reaped how }).stage =
            insert i (goneChildren state.stage) := by
          ext j
          simp only [mem_goneChildren, Finset.mem_insert, State.stage,
            State.setChild]
          by_cases equal : j = i
          · subst equal
            simp [Phase.stage]
          · simp [equal]
        have absent : i ∉ goneChildren state.stage := by
          simp [State.stage, phase, Phase.stage]
        show (goneChildren (state.setChild i _).stage).card = _
        rw [grown, Finset.card_insert_of_notMem absent, waited]
  | waitFails child parent none =>
      rcases counted.waiting _ parent with ⟨more, born, waited⟩
      have all : goneChildren state.stage = Finset.univ := by
        ext i
        simp only [mem_goneChildren, Finset.mem_univ, iff_true]
        rcases Phase.isProcess_eq_false (none i) with unborn | gone
        · exact absurd unborn (born i)
        · exact gone
      rw [all, Finset.card_univ, Fintype.card_fin] at waited
      omega
  | openLock i phase =>
      unfold openLock
      split
      · exact counted
      · show Counted state.parent (state.setChild i _).stage
        rw [alive phase rfl rfl]
        exact counted
  | openFails i phase =>
      show Counted state.parent (state.setChild i _).stage
      rw [alive phase rfl rfl]
      exact counted
  | printf i printed phase more room =>
      unfold printf
      split
      all_goals
        show Counted state.parent (state.setChild i _).stage
        rw [alive phase rfl rfl]
        exact counted
  | writeOut i printed phase full =>
      unfold writeOut
      split
      · exact counted
      · show Counted state.parent (state.setChild i _).stage
        rw [alive phase rfl (by rw [phase]; rfl)]
        exact counted
  | unlinkLock i printed phase done room =>
      unfold unlinkLock
      split
      all_goals
        show Counted state.parent (state.setChild i _).stage
        rw [alive phase rfl rfl]
        exact counted
  | exit i how phase =>
      show Counted state.parent (state.setChild i _).stage
      rw [alive phase rfl rfl]
      exact counted

/-! ## Who holds the lock -/

/-- The child is between its successful `open` and its `unlink`. -/
def Holds (state : State n) (i : Fin n) : Prop :=
  ∃ printed, (state.child i).phase = .writing printed

/-- At most one child holds the lock, and the file says whether one does. -/
structure Locked (state : State n) : Prop where
  alone : ∀ i j, Holds state i → Holds state j → i = j
  lock : state.parent ≠ .unlinking →
    (state.lockFile = true ↔ ∃ i, Holds state i)

/-- The same children hold the lock and the file is the same. -/
theorem Locked.same
    {state next : State n} (locked : Locked state)
    (started : state.parent ≠ .unlinking)
    (file : next.lockFile = state.lockFile)
    (holders : ∀ i, Holds next i ↔ Holds state i) : Locked next := by
  refine ⟨?_, ?_⟩
  · intro i j left right
    exact locked.alone i j ((holders i).mp left) ((holders j).mp right)
  · intro _
    rw [file, locked.lock started]
    exact exists_congr fun i => (holders i).symm

/-- Nobody holds the lock and there is no file. -/
theorem Locked.free
    {state : State n} (file : state.lockFile = false)
    (nobody : ∀ i, ¬ Holds state i) : Locked state := by
  refine ⟨?_, ?_⟩
  · intro i _ holds
    exact absurd holds (nobody i)
  · intro _
    rw [file]
    simp [nobody]

theorem holds_setChild (state : State n) (i j : Fin n) (child : Child) :
    Holds (state.setChild i child) j ↔
      if j = i then ∃ printed, child.phase = .writing printed
      else Holds state j := by
  unfold Holds State.setChild
  by_cases equal : j = i
  · subst equal
    simp
  · simp [equal]

/-- A child that neither takes nor gives up the lock. -/
theorem holds_setChild_same {state : State n} {i : Fin n} (child : Child)
    (same : (∃ printed, child.phase = .writing printed) ↔ Holds state i)
    (j : Fin n) : Holds (state.setChild i child) j ↔ Holds state j := by
  rw [holds_setChild]
  split
  · rename_i equal
    rw [same, equal]
  · exact Iff.rfl

theorem Holds.alive {state : State n} {i : Fin n} (holds : Holds state i) :
    state.stage i = .alive := by
  rcases holds with ⟨printed, phase⟩
  simp [State.stage, phase, Phase.stage]

/-- There is no child before the first `unlink`. -/
theorem Counted.started
    {state : State n} (counted : Counted state.parent state.stage)
    {i : Fin n} (alive : state.stage i = .alive) :
    state.parent ≠ .unlinking := by
  intro parent
  rw [counted.unlinking parent i] at alive
  cases alive

theorem locked_taken
    {arguments : Arguments n} {stdout : Stdout} {state next : State n}
    (counted : Counted state.parent state.stage) (locked : Locked state)
    (taken : Taken arguments stdout state next) : Locked next := by
  have started : ∀ {i : Fin n} {phase : Phase},
      (state.child i).phase = phase → phase.stage = .alive →
        state.parent ≠ .unlinking := by
    intro i phase here alive
    exact counted.started (i := i) (by rw [State.stage, here, alive])
  cases taken with
  | unlinkFirst parent =>
      apply Locked.free rfl
      intro i holds
      have held : Holds state i := holds
      exact counted.started held.alive parent
  | unlinkLast parent =>
      apply Locked.free rfl
      intro i holds
      have held : Holds state i := holds
      have alive := held.alive
      rw [counted.cleaned (.inl parent) i] at alive
      cases alive
  | fork i parent =>
      refine locked.same (by simp [parent]) rfl ?_
      refine holds_setChild_same ⟨.acquiring, []⟩ ?_
      refine iff_of_false (by simp) ?_
      intro holds
      have alive := holds.alive
      rw [(counted.forking _ parent).2 i, if_neg (lt_irrefl _)] at alive
      cases alive
  | forkFails child parent =>
      exact locked.same (by simp [parent]) rfl fun _ => Iff.rfl
  | wait i how child parent phase =>
      refine locked.same (by simp [parent]) rfl ?_
      refine holds_setChild_same ⟨.reaped how, (state.child i).buffer⟩ ?_
      simp [Holds, phase]
  | waitFails child parent none =>
      exact locked.same (by simp [parent]) rfl fun _ => Iff.rfl
  | openLock i phase =>
      unfold openLock
      split
      · exact locked
      · rename_i free
        have nobody : ∀ j, ¬ Holds state j := by
          intro j holds
          exact free ((locked.lock (started phase rfl)).mpr ⟨j, holds⟩)
        have only : ∀ j, Holds { state.setChild i
            ⟨.writing 0, (state.child i).buffer⟩ with lockFile := true } j ↔
              j = i := by
          intro j
          refine (holds_setChild state i j _).trans ?_
          split
          · rename_i equal
            simp [equal]
          · rename_i other
            exact iff_of_false (nobody j) other
        refine ⟨?_, ?_⟩
        · intro j k left right
          exact ((only j).mp left).trans ((only k).mp right).symm
        · intro _
          exact iff_of_true rfl ⟨i, (only i).mpr rfl⟩
  | openFails i phase =>
      refine locked.same (started phase rfl) rfl ?_
      refine holds_setChild_same
        ⟨.exiting .acquireError, (state.child i).buffer⟩ ?_
      simp [Holds, phase]
  | printf i printed phase more room =>
      unfold printf
      split
      all_goals
        refine locked.same (started phase rfl) rfl ?_
        exact holds_setChild_same _
          (iff_of_true ⟨printed + 1, rfl⟩ ⟨printed, phase⟩)
  | writeOut i printed phase full =>
      unfold writeOut
      split
      · exact locked
      · refine locked.same (started phase rfl) rfl ?_
        exact holds_setChild_same _
          (iff_of_true ⟨printed, phase⟩ ⟨printed, phase⟩)
  | unlinkLock i printed phase done room =>
      have held := (locked.lock (started phase rfl)).mpr
        ⟨i, printed, phase⟩
      unfold unlinkLock
      rw [if_pos held]
      apply Locked.free rfl
      intro j holds
      have apart := (holds_setChild state i j
        ⟨.exiting .success, (state.child i).buffer⟩).mp holds
      split at apart
      · simp at apart
      · rename_i other
        exact other (locked.alone j i apart ⟨printed, phase⟩)
  | exit i how phase =>
      refine locked.same (started phase rfl) rfl ?_
      refine holds_setChild_same ⟨.exited how, []⟩ ?_
      simp [Holds, phase]

end OSCourse.LockFile
