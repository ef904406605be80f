import OSCourse.LockFile.Contiguity

/-!
# Torn blocks

When a block is longer than the buffer and there is another child, a run tears
the block apart: the child that has removed the lock file still has the end of
its block in its buffer, and the other child writes before it exits.
-/

namespace OSCourse.LockFile

open OSCourse.Library.Blocks
open OSCourse.Library.TransitionSystem

variable {n : Nat} {arguments : Arguments n} {size : Nat}
  {positive : 0 < size}

/-! ## One child runs -/

/-- Only the child `i` has moved and written. -/
structure Moved (i : Fin n) (state next : State n) : Prop where
  others : ∀ j, j ≠ i → next.child j = state.child j
  output : ∃ items, next.output = state.output ++ signed i items

theorem Moved.refl (i : Fin n) (state : State n) : Moved i state state :=
  ⟨fun _ _ => rfl, [], by simp⟩

theorem Moved.trans {i : Fin n} {first second third : State n}
    (left : Moved i first second) (right : Moved i second third) :
    Moved i first third := by
  rcases left with ⟨leftOthers, items, leftOutput⟩
  rcases right with ⟨rightOthers, more, rightOutput⟩
  refine ⟨fun j other => ?_, items ++ more, ?_⟩
  · rw [rightOthers j other, leftOthers j other]
  · rw [rightOutput, leftOutput, signed_append, List.append_assoc]

theorem Moved.of_update {i : Fin n} {state next : State n} (child : Child)
    (children : next.child = Function.update state.child i child)
    (items : List UInt8)
    (output : next.output = state.output ++ signed i items) :
    Moved i state next := by
  refine ⟨fun j other => ?_, items, output⟩
  rw [children, Function.update_of_ne other]

/-- The states of the runs with a full buffer. -/
abbrev Runs (arguments : Arguments n) (positive : 0 < size)
    (state : State n) : Prop :=
  (writers arguments (.buffered size positive)).Reachable state

theorem runs_step {state next : State n} (runs : Runs arguments positive state)
    (call : Call n)
    (ran : step arguments (.buffered size positive) state call = some next) :
    Runs arguments positive next :=
  System.Reachable.step runs
    (show (writers arguments _).step state call next from ran)

/-- The buffer is written out until it is not over full. -/
theorem exists_drained {state : State n} {i : Fin n} {printed : Nat}
    (runs : Runs arguments positive state)
    (phase : (state.child i).phase = .writing printed) :
    ∃ next, Runs arguments positive next ∧ Moved i state next ∧
      next.lockFile = state.lockFile ∧
      (next.child i).phase = .writing printed ∧
      (next.child i).buffer.length ≤ size := by
  generalize length : (state.child i).buffer.length = bytes
  induction bytes using Nat.strong_induction_on generalizing state with
  | _ bytes induction =>
      by_cases room : bytes ≤ size
      · exact ⟨state, runs, .refl i state, rfl, phase, by omega⟩
      · have full : Stdout.overflows (.buffered size positive)
            (state.child i).buffer = true := by
          simp only [Stdout.overflows, decide_eq_true_eq]
          omega
        have taken : Runs arguments positive
            (writeOut (.buffered size positive) state i) := by
          refine runs_step runs (.writeOut i) ?_
          simp [step, parentStep, childStep, phase, full]
        rcases induction (bytes - size) (by omega) taken
          (by simp [writeOut, State.setChild, phase])
          (by simp [writeOut, State.setChild, length]) with
          ⟨next, runs, moved, lock, phase, room⟩
        refine ⟨next, runs, ?_, lock, phase, room⟩
        exact (Moved.of_update _ rfl _ rfl).trans moved

/-- The child prints all its lines. -/
theorem exists_printed {state : State n} {i : Fin n} {printed : Nat}
    (runs : Runs arguments positive state)
    (phase : (state.child i).phase = .writing printed) :
    ∃ next, Runs arguments positive next ∧ Moved i state next ∧
      next.lockFile = state.lockFile ∧
      (next.child i).phase = .writing arguments.count ∧
      (next.child i).buffer.length ≤ size := by
  generalize left : arguments.count - printed = lines
  induction lines generalizing state printed with
  | zero =>
      have bound := (kept_of_reachable runs).ledger.bound i printed phase
      have all : printed = arguments.count := by omega
      rw [all] at phase
      exact exists_drained runs phase
  | succ lines induction =>
      rcases exists_drained runs phase with
        ⟨drained, runs, moved, lock, phase, room⟩
      have roomy : Stdout.overflows (.buffered size positive)
          (drained.child i).buffer = false := by
        simpa [Stdout.overflows] using room
      have more : printed < arguments.count := by omega
      have taken : Runs arguments positive
          (printf arguments (.buffered size positive) drained i printed) := by
        refine runs_step runs (.printf i) ?_
        simp [step, parentStep, childStep, phase, roomy, more]
      have printing : ((printf arguments (.buffered size positive) drained i
          printed).child i).phase = .writing (printed + 1) := by
        simp [printf, State.setChild]
      rcases induction taken printing (by omega)
        with ⟨next, runs, moved', lock', phase, room⟩
      refine ⟨next, runs, ?_, lock'.trans lock, phase, room⟩
      refine moved.trans (Moved.trans ?_ moved')
      exact .of_update _ rfl [] (by simp [printf, State.setChild])

/-- The child takes the lock. -/
theorem exists_opened {state : State n} {i : Fin n}
    (runs : Runs arguments positive state)
    (phase : (state.child i).phase = .acquiring)
    (free : state.lockFile = false) :
    ∃ next, Runs arguments positive next ∧ Moved i state next ∧
      (next.child i).phase = .writing 0 := by
  refine ⟨openLock state i, ?_, ?_, ?_⟩
  · refine runs_step runs (.openLock i) ?_
    simp [step, parentStep, childStep, phase]
  · exact .of_update ⟨.writing 0, (state.child i).buffer⟩
      (by simp [openLock, free, State.setChild]) []
      (by simp [openLock, free, State.setChild])
  · simp [openLock, free, State.setChild]

/-- A child that holds the lock removes it. -/
theorem exists_released {state : State n} {i : Fin n} {printed : Nat}
    (runs : Runs arguments positive state)
    (phase : (state.child i).phase = .writing printed) :
    ∃ next, Runs arguments positive next ∧ Moved i state next ∧
      next.lockFile = false ∧
      (next.child i).phase = .exiting .success := by
  rcases exists_printed runs phase with
    ⟨last, runs, moved, _, phase, room⟩
  have kept := kept_of_reachable runs
  have held : last.lockFile = true :=
    (kept.locked.lock (kept.counted.started (Holds.alive ⟨_, phase⟩))).mpr
      ⟨i, _, phase⟩
  have roomy : Stdout.overflows (.buffered size positive)
      (last.child i).buffer = false := by
    simpa [Stdout.overflows] using room
  refine ⟨unlinkLock last i, ?_, ?_, ?_, ?_⟩
  · refine runs_step runs (.unlinkLock i) ?_
    simp [step, parentStep, childStep, phase, roomy]
  · refine moved.trans (.of_update
      ⟨.exiting .success, (last.child i).buffer⟩ ?_ [] ?_)
    · simp [unlinkLock, held, State.setChild]
    · simp [unlinkLock, held, State.setChild]
  · simp [unlinkLock, held]
  · simp [unlinkLock, held, State.setChild]

theorem runs_exit {state : State n} {i : Fin n} {how : Exit}
    (runs : Runs arguments positive state)
    (phase : (state.child i).phase = .exiting how) :
    Runs arguments positive (exit state i how) := by
  refine runs_step runs (.exit i) ?_
  simp [step, parentStep, childStep, phase]

/-! ## The parent forks -/

/-- The parent has forked the first `m` children, and they wait for the
lock. -/
structure Forked (m : Nat) (state : State n) : Prop where
  parent : state.parent = nextFork n m
  free : state.lockFile = false
  children : ∀ i : Fin n, i < m → (state.child i).phase = .acquiring

theorem exists_forked (arguments : Arguments n) (positive : 0 < size)
    {m : Nat} (bound : m ≤ n) :
    ∃ state, Runs arguments positive state ∧ Forked m state := by
  induction m with
  | zero =>
      refine ⟨⟨nextFork n 0, fun _ => ⟨.absent, []⟩, false, []⟩, ?_, ?_⟩
      · have started : Runs arguments positive
            ⟨.unlinking, fun _ => ⟨.absent, []⟩, false, []⟩ :=
          .start ⟨rfl, fun _ => rfl, rfl⟩
        refine runs_step started .unlink ?_
        simp [step, parentStep]
      · exact ⟨rfl, rfl, by simp⟩
  | succ m induction =>
      rcases induction (by omega) with ⟨state, runs, forked⟩
      have more : m < n := bound
      have parent : state.parent = .forking m := by
        rw [forked.parent, nextFork, if_pos more]
      refine ⟨{ state.setChild ⟨m, more⟩ ⟨.acquiring, []⟩ with
        parent := nextFork n (m + 1) }, ?_, rfl, forked.free, ?_⟩
      · refine runs_step runs .fork ?_
        simp [step, parentStep, parent, more]
      · intro i early
        by_cases equal : i = ⟨m, more⟩
        · subst equal
          simp [State.setChild]
        · have apart : (i : Nat) ≠ m := fun same => equal (Fin.ext same)
          simpa [State.setChild, Function.update_of_ne equal] using
            forked.children i (by omega)

/-- All children wait for the lock. -/
theorem exists_allForked (arguments : Arguments n) (positive : 0 < size) :
    ∃ state, Runs arguments positive state ∧ state.lockFile = false ∧
      ∀ i, (state.child i).phase = .acquiring := by
  rcases exists_forked arguments positive (le_refl n) with
    ⟨state, runs, forked⟩
  exact ⟨state, runs, forked.free, fun i => forked.children i i.isLt⟩

/-! ## Torn blocks -/

/-- The child takes the lock, prints and removes the lock again. -/
theorem exists_critical {state : State n} {i : Fin n}
    (runs : Runs arguments positive state)
    (phase : (state.child i).phase = .acquiring)
    (free : state.lockFile = false) :
    ∃ next, Runs arguments positive next ∧ Moved i state next ∧
      next.lockFile = false ∧
      (next.child i).phase = .exiting .success := by
  rcases exists_opened runs phase free with ⟨opened, runs, moved, phase⟩
  rcases exists_released runs phase with ⟨next, runs, moved', free, phase⟩
  exact ⟨next, runs, moved.trans moved', free, phase⟩

/-- What a child that has removed the lock file has written and has in its
buffer. -/
theorem bytes_of_exiting {state : State n} {i : Fin n}
    (runs : Runs arguments positive state)
    (phase : (state.child i).phase = .exiting .success) :
    itemsOf i state.output ++ (state.child i).buffer =
      arguments.block i := by
  rw [(kept_of_reachable runs).ledger.bytes i, phase]
  rfl

/-- The end of a block is not written when the lock file is removed. -/
theorem buffer_ne_nil {state : State n} {i : Fin n}
    (runs : Runs arguments positive state)
    (phase : (state.child i).phase = .exiting .success) :
    (state.child i).buffer ≠ [] := by
  intro empty
  have bytes := bytes_of_exiting runs phase
  rw [empty, List.append_nil] at bytes
  have kept := (retained_of_reachable runs).kept i (by rw [phase]; rfl)
    (by rw [bytes]; exact block_ne_nil arguments i)
  exact kept.2 empty

/-- The end of a long block comes after another child's block. -/
theorem exists_torn {i j : Fin n} (different : i ≠ j)
    (long : size < (arguments.block i).length) :
    ∃ state, Runs arguments positive state ∧
      ¬ Contiguous state.output := by
  rcases exists_allForked arguments positive with
    ⟨first, runsFirst, freeFirst, acquiring⟩
  rcases exists_critical runsFirst (acquiring i) freeFirst with
    ⟨second, runsSecond, movedSecond, freeSecond, phaseI⟩
  have bytesI := bytes_of_exiting runsSecond phaseI
  have leftI := buffer_ne_nil runsSecond phaseI
  have wroteI : itemsOf i second.output ≠ [] := by
    intro nothing
    have room := (retained_of_reachable runsSecond).room i _ phaseI
    rw [nothing, List.nil_append] at bytesI
    rw [← bytesI] at long
    omega
  have phaseJ : (second.child j).phase = .acquiring := by
    rw [movedSecond.others j (Ne.symm different)]
    exact acquiring j
  have freshJ := ((kept_of_reachable runsSecond).ledger.itemsOf_eq_nil
    (i := j) (by rw [phaseJ]; rfl)).1
  rcases exists_critical runsSecond phaseJ freeSecond with
    ⟨third, runsThird, ⟨others, written, output⟩, _, phaseJ⟩
  have bytesJ := bytes_of_exiting runsThird phaseJ
  rw [output, itemsOf_append, freshJ, itemsOf_signed_self,
    List.nil_append] at bytesJ
  have runsFourth := runs_exit runsThird phaseJ
  have childI : (exit third j .success).child i = second.child i := by
    rw [← others i different]
    simp [exit, State.setChild, Function.update_of_ne different]
  have runsFifth := runs_exit (i := i) runsFourth (by rw [childI, phaseI])
  refine ⟨_, runsFifth, ?_⟩
  have final : (exit (exit third j .success) i .success).output =
      second.output ++ signed j (arguments.block j) ++
        signed i (second.child i).buffer := by
    show third.output ++ signed j (third.child j).buffer ++
      signed i ((exit third j .success).child i).buffer = _
    rw [childI, output, ← bytesJ, signed_append, List.append_assoc
      second.output]
  rw [final]
  exact not_contiguous_of_interrupted different wroteI
    (block_ne_nil arguments j) leftI

/--
With a fully buffered standard output the blocks come out whole in every run
exactly when they cannot be torn apart: there is one child, or every block fits
in the buffer.
-/
theorem blocksLaw_iff_unbroken (arguments : Arguments n) (size : Nat)
    (positive : 0 < size) :
    (∀ state, (writers arguments (.buffered size positive)).Reachable state →
      BlocksLaw arguments state) ↔ Unbroken arguments size := by
  constructor
  · intro law
    by_contra broken
    simp only [Unbroken, not_or, not_le, not_forall] at broken
    rcases broken with ⟨several, i, long⟩
    have : Nontrivial (Fin n) := Fin.nontrivial_iff_two_le.mpr several
    rcases exists_ne i with ⟨j, different⟩
    have torn : ∃ state, Runs arguments positive state ∧
        ¬ Contiguous state.output := exists_torn (Ne.symm different) long
    rcases torn with ⟨state, runs, interrupted⟩
    exact interrupted (law state runs).contiguous
  · intro unbroken state reached
    exact blocksLaw_of_contiguous (kept_of_reachable reached).ledger
      (contiguous_of_unbroken unbroken reached)

/-! ## Two children -/

/-- The arguments `aaaa bbbb count`. -/
def twoMessages (count : Nat) (positive : 0 < count) : Arguments 2 where
  message i := List.replicate 4 (if i.val = 0 then 97 else 98)
  count := count
  positive := positive

theorem length_block_twoMessages (count : Nat) (positive : 0 < count)
    (i : Fin 2) :
    ((twoMessages count positive).block i).length = count * 5 := by
  rw [Arguments.block, length_lines]
  simp [twoMessages, Arguments.line]

/-- Three lines of each child fit in a buffer of 4096 bytes. -/
theorem blocksLaw_iff_unbroken_short :
    Unbroken (twoMessages 3 (by decide)) 4096 ∧
      ∀ state, (writers (twoMessages 3 (by decide))
          (.buffered 4096 (by decide))).Reachable state →
        BlocksLaw (twoMessages 3 (by decide)) state := by
  have unbroken : Unbroken (twoMessages 3 (by decide)) 4096 := by
    refine .inr ?_
    intro i
    rw [length_block_twoMessages]
    decide
  exact ⟨unbroken, (blocksLaw_iff_unbroken (twoMessages 3 (by decide)) 4096
    (by decide)).mpr unbroken⟩

/-- A thousand lines do not, and one child's block is interrupted by the
other's. -/
theorem buffered_output_torn :
    ¬ ∀ state, (writers (twoMessages 1000 (by decide))
        (.buffered 4096 (by decide))).Reachable state →
      BlocksLaw (twoMessages 1000 (by decide)) state := by
  intro law
  have torn : ∃ state, Runs (twoMessages 1000 (by decide))
      (show 0 < 4096 by decide) state ∧ ¬ Contiguous state.output := by
    apply exists_torn (show (0 : Fin 2) ≠ 1 by decide)
    rw [length_block_twoMessages]
    decide
  rcases torn with ⟨state, runs, interrupted⟩
  exact interrupted (law state runs).contiguous

end OSCourse.LockFile
