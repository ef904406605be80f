import OSCourse.ForkWriters.Layout

/-!
# The program ends

No process of the program waits for another but the parent for its children,
and no loop polls.  So every run is finite, whatever fails and in whatever
order the steps come, and a run that cannot go on has ended.
-/

namespace OSCourse.ForkWriters

open OSCourse.Library.TransitionSystem

variable {arguments : Arguments} {state next : State} {old : List UInt8}

/-- A bound on the steps that a process at the place still takes. -/
def Phase.rank (count : Nat) : Phase → Nat
  | .creating => count + 9
  | .forking .first => count + 8
  | .forking .second => count + 7
  | .waiting left => count + 4 + left
  | .absent => count + 6
  | .sleeping => count + 5
  | .opening => count + 4
  | .writing written => count - written + 2
  | .exited _ => 1
  | .reaped _ => 0

/-- A bound on the steps of a run. -/
def State.rank (arguments : Arguments) (state : State) : Nat :=
  (state.phase .parent).rank arguments.count +
    (state.phase (.child .first)).rank arguments.count +
    (state.phase (.child .second)).rank arguments.count

/-- A process moves to a place from which it takes fewer steps. -/
theorem State.rank_setPhase (arguments : Arguments) (state : State)
    (writer : Writer) (phase : Phase) (output : List UInt8)
    (lower : phase.rank arguments.count <
      (state.phase writer).rank arguments.count) :
    State.rank arguments { state.setPhase writer phase with output := output } <
      state.rank arguments := by
  rcases writer with _ | _ | _ <;>
    simp only [State.rank, State.setPhase_phase, if_true, reduceCtorEq,
      if_false, Writer.child.injEq] <;>
    omega

theorem rank_step (control : Control state)
    (taken : Taken arguments state next) :
    next.rank arguments < state.rank arguments := by
  cases taken with
  | create parent =>
      exact State.rank_setPhase _ _ _ _ _ (by simp [parent, Phase.rank])
  | createFails parent =>
      exact State.rank_setPhase _ _ _ _ _ (by simp [parent, Phase.rank])
  | fork child parent =>
      have absent := control.absent parent
      have forked := State.rank_setPhase arguments state (.child child)
        child.start state.output
        (by cases child <;> simp [absent, Child.start, Phase.rank])
      refine Nat.lt_trans (State.rank_setPhase _ _ _ _ _ ?_) forked
      cases child <;> simp [parent, Child.next, Phase.rank]
  | forkFails child parent =>
      refine State.rank_setPhase _ _ _ _ _ ?_
      cases child <;> simp [parent, Phase.rank]
  | wait child left how parent ended =>
      have both : left = state.unreaped ∧ 0 < left ∧
          ∀ child, (state.phase (.child child)).isForked = true := by
        simpa only [Control, parent] using control
      have reaped := State.rank_setPhase arguments state (.child child)
        (.reaped how) state.output
        (by simp [ended, Phase.rank])
      refine Nat.lt_trans (State.rank_setPhase _ _ _ _ _ ?_) reaped
      unfold nextWait
      split <;> simp [parent, Phase.rank] <;> omega
  | waitFails left parent =>
      exact State.rank_setPhase _ _ _ _ _ (by simp [parent, Phase.rank]; omega)
  | wake writer asleep =>
      exact State.rank_setPhase _ _ _ _ _ (by simp [asleep, Phase.rank])
  | openFile writer opening =>
      exact State.rank_setPhase _ _ _ _ _ (by simp [opening, Phase.rank])
  | openFails writer opening =>
      exact State.rank_setPhase _ _ _ _ _ (by simp [opening, Phase.rank])
  | write writer written stored phase more bound =>
      refine State.rank_setPhase _ _ _ _ _ ?_
      unfold afterWrite
      split <;> simp only [phase, Phase.rank] <;> omega
  | writeFails writer written phase more =>
      exact State.rank_setPhase _ _ _ _ _ (by simp [phase, Phase.rank])
  | exit writer written phase done =>
      exact State.rank_setPhase _ _ _ _ _ (by simp [phase, Phase.rank])

/-! ## No process is stuck -/

/-- The outcomes of the calls for which the source has an error branch. -/
def Call.isFailure (arguments : Arguments) : Call → Bool
  | .createFails | .forkFails | .waitFails => true
  | .openFails _ | .writeFails _ => true
  | .write writer stored =>
      decide (stored ≠ (arguments.message writer).length)
  | _ => false

/-- Every process has ended, or was never forked because the parent failed. -/
structure Ended (state : State) : Prop where
  parent : ∃ how, state.phase .parent = .exited how
  children : ∀ child, state.phase (.child child) = .absent ∨
    (∃ how, state.phase (.child child) = .exited how) ∨
    ∃ how, state.phase (.child child) = .reaped how

/-- No call that succeeds can be made. -/
def Stuck (arguments : Arguments) (state : State) : Prop :=
  ∀ call, call.isFailure arguments = false → step arguments state call = none

/-- A writer that cannot go on is not in `child_write`. -/
theorem Stuck.writer (stuck : Stuck arguments state) (writer : Writer) :
    state.phase writer ≠ .sleeping ∧ state.phase writer ≠ .opening ∧
      ∀ written, state.phase writer ≠ .writing written := by
  refine ⟨?_, ?_, ?_⟩
  · intro asleep
    have waits := stuck (.wake writer) rfl
    simp [step, mainStep, writerStep, asleep] at waits
  · intro opening
    have waits := stuck (.openFile writer) rfl
    simp [step, mainStep, writerStep, opening] at waits
  · intro written writing
    have writes := stuck
      (.write writer (arguments.message writer).length)
      (by simp [Call.isFailure])
    have exits := stuck (.exit writer) rfl
    simp [step, mainStep, writerStep, writing] at writes exits
    omega

/-- A child that has been forked and cannot go on has ended. -/
theorem Stuck.child {child : Child} (stuck : Stuck arguments state)
    (forked : (state.phase (.child child)).isForked = true) :
    (∃ how, state.phase (.child child) = .exited how) ∨
      ∃ how, state.phase (.child child) = .reaped how := by
  rcases stuck.writer (.child child) with ⟨awake, opened, written⟩
  cases phase : state.phase (.child child) with
  | exited how => exact .inl ⟨how, rfl⟩
  | reaped how => exact .inr ⟨how, rfl⟩
  | sleeping => exact absurd phase awake
  | opening => exact absurd phase opened
  | writing count => exact absurd phase (written count)
  | _ => simp [phase, Phase.isForked] at forked

/-- The parent does not wait for ever. -/
theorem Stuck.not_waiting (control : Control state)
    (stuck : Stuck arguments state) (left : Nat) :
    state.phase .parent ≠ .waiting left := by
  intro waiting
  have both : left = state.unreaped ∧ 0 < left ∧
      ∀ child, (state.phase (.child child)).isForked = true := by
    simpa only [Control, waiting] using control
  have reaped : ∀ child, (state.phase (.child child)).isReaped = true := by
    intro child
    rcases stuck.child (both.2.2 child) with ⟨how, exited⟩ | ⟨how, reaped⟩
    · have waits := stuck (.wait child) rfl
      simp [step, mainStep, writerStep, waiting, exited] at waits
    · rw [reaped]
      rfl
  have none : state.unreaped = 0 := by simp [State.unreaped, reaped]
  omega

theorem Stuck.parent (control : Control state)
    (stuck : Stuck arguments state) :
    ∃ how, state.phase .parent = .exited how := by
  rcases stuck.writer .parent with ⟨awake, opened, written⟩
  cases phase : state.phase .parent with
  | exited how => exact ⟨how, rfl⟩
  | creating =>
      have creates := stuck .create rfl
      simp [step, mainStep, writerStep, phase] at creates
  | forking child =>
      have forks := stuck .fork rfl
      simp [step, mainStep, writerStep, phase] at forks
  | waiting left => exact absurd phase (stuck.not_waiting control left)
  | opening => exact absurd phase opened
  | writing count => exact absurd phase (written count)
  | _ => simp [Control, phase] at control

theorem Stuck.ended (control : Control state)
    (stuck : Stuck arguments state) : Ended state := by
  rcases stuck.parent control with ⟨how, parent⟩
  refine ⟨⟨how, parent⟩, ?_⟩
  intro child
  cases how with
  | success =>
      have reaped : ∀ child, (state.phase (.child child)).isReaped = true := by
        simpa [Control, parent] using control
      have ended := reaped child
      cases phase : state.phase (.child child) with
      | reaped how => exact .inr (.inr ⟨how, rfl⟩)
      | _ => simp [phase, Phase.isReaped] at ended
  | failure =>
      have started : ∀ child, state.phase (.child child) = .absent ∨
          (state.phase (.child child)).isForked = true := by
        simpa [Control, parent] using control
      rcases started child with absent | forked
      · exact .inl absent
      · exact .inr (stuck.child forked)

/--
Every run takes at most `3 * count + 21` steps, and when no process can make a
call that succeeds, every process has ended.
-/
theorem run_ends (arguments : Arguments) (old : List UInt8)
    (steps : List (Transition State Call)) (state : State)
    (run : (forkWriters arguments old).Stretch (started old) steps state) :
    steps.length ≤ 3 * arguments.count + 21 ∧
      (Stuck arguments state → Ended state) := by
  have begin : (forkWriters arguments old).Reachable (started old) := .start rfl
  refine ⟨?_, Stuck.ended (control_of_reachable (run.reachable begin))⟩
  have bound := run.length_add_le (State.rank arguments)
    (fun _ _ _ reached taken =>
      rank_step (control_of_reachable reached) (taken_of_step taken)) begin
  have first : (started old).rank arguments = 3 * arguments.count + 21 := by
    simp only [State.rank, started, Phase.rank]
    omega
  omega

/-- Every process writes one byte once. -/
def oneByte : Arguments := ⟨fun _ => [97], 1, Nat.one_pos⟩

/-- A whole run: the children write one after the other, then the parent. -/
def oneByteCalls : List Call :=
  [.create, .fork, .fork, .openFile (.child .first),
    .write (.child .first) 1, .exit (.child .first), .wake (.child .second),
    .openFile (.child .second), .write (.child .second) 1,
    .exit (.child .second), .wait .second, .wait .first, .openFile .parent,
    .write .parent 1, .exit .parent]

/-- The state at the end of this run. -/
def allWritten : State :=
  (oneByteCalls.foldlM (step oneByte) (started [])).get (by decide)

theorem stuck_allWritten : Stuck oneByte allWritten := by
  rintro (_ | _ | _ | _ | (_ | _ | _) | (_ | _ | _) | (_ | _ | _) |
    ⟨_ | _ | _, _⟩ | (_ | _ | _) | (_ | _ | _) | (_ | _) | _) _ <;> rfl

theorem run_ends_oneByte :
    ∃ steps : List (Transition State Call),
      steps.map Transition.label = oneByteCalls ∧ Stuck oneByte allWritten ∧
        steps.length ≤ 24 ∧ (Stuck oneByte allWritten → Ended allWritten) := by
  have run : oneByteCalls.foldlM (step oneByte) (started []) =
      some allWritten := (Option.some_get _).symm
  have sound : ∀ state call next, step oneByte state call = some next →
      (forkWriters oneByte []).step state call next := fun _ _ _ => id
  rcases System.Stretch.of_run sound run with ⟨steps, labels, stretch⟩
  exact ⟨steps, labels, stuck_allWritten, run_ends oneByte [] _ _ stretch⟩

end OSCourse.ForkWriters
