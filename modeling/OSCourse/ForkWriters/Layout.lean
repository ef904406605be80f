import OSCourse.ForkWriters.Program
import OSCourse.Library.Shuffle

/-!
# The layout of the output

In every run, whatever fails, the file holds the pieces that the children have
appended, shuffled, and after them the pieces of the parent.  The pieces of a
process are copies of its message; only the last one may be cut, and then the
process has ended with status 1.
-/

namespace OSCourse.ForkWriters

open OSCourse.Library.Shuffle
open OSCourse.Library.TransitionSystem

variable {arguments : Arguments} {state next : State} {old : List UInt8}

@[simp, grind =]
theorem State.setPhase_phase (state : State) (writer other : Writer)
    (phase : Phase) :
    (state.setPhase writer phase).phase other =
      if other = writer then phase else state.phase other :=
  Function.update_apply _ _ _ _

@[simp, grind =]
theorem State.setPhase_output (state : State) (writer : Writer)
    (phase : Phase) :
    (state.setPhase writer phase).output = state.output :=
  rfl

/-! ## Where the processes are -/

/-- The process has ended and the parent has waited for it. -/
def Phase.isReaped : Phase → Bool
  | .reaped _ => true
  | _ => false

/-- A phase of a child that has been forked. -/
def Phase.isForked : Phase → Bool
  | .sleeping | .opening | .writing _ | .exited _ | .reaped _ => true
  | _ => false

/-- The children that the parent has not waited for. -/
def State.unreaped (state : State) : Nat :=
  (if (state.phase (.child .first)).isReaped then 0 else 1) +
    if (state.phase (.child .second)).isReaped then 0 else 1

/-- What the place of the parent says of the children. -/
def Control (state : State) : Prop :=
  match state.phase .parent with
  | .creating => ∀ child, state.phase (.child child) = .absent
  | .forking .first => ∀ child, state.phase (.child child) = .absent
  | .forking .second =>
      (state.phase (.child .first)).isForked = true ∧
        state.phase (.child .second) = .absent ∧
        (state.phase (.child .first)).isReaped = false
  | .waiting left =>
      left = state.unreaped ∧ 0 < left ∧
        ∀ child, (state.phase (.child child)).isForked = true
  | .exited .failure =>
      ∀ child, state.phase (.child child) = .absent ∨
        (state.phase (.child child)).isForked = true
  | .opening | .writing _ | .exited .success =>
      ∀ child, (state.phase (.child child)).isReaped = true
  | _ => False

/-- A step of a child that the parent has not waited for. -/
theorem Control.move_child {child : Child} {phase : Phase}
    (control : Control state)
    (forked : (state.phase (.child child)).isForked = true)
    (unreaped : (state.phase (.child child)).isReaped = false)
    (after : phase.isForked = true) (still : phase.isReaped = false) :
    Control (state.setPhase (.child child) phase) := by
  have absent : state.phase (.child child) ≠ .absent := by
    intro absent
    simp [absent, Phase.isForked] at forked
  unfold Control State.unreaped at *
  simp only [State.setPhase_phase, reduceCtorEq, if_false, Writer.child.injEq]
  split at control
  · exact absurd (control child) absent
  · exact absurd (control child) absent
  · cases child with
    | first => simp [after, still, control.2.1]
    | second => exact absurd control.2.1 absent
  · refine ⟨?_, control.2.1, ?_⟩
    · rw [control.1]
      cases child <;> simp [unreaped, still]
    · intro other
      split
      · exact after
      · exact control.2.2 other
  · intro other
    split
    · exact .inr after
    · exact control other
  · simp [control child] at unreaped
  · simp [control child] at unreaped
  · simp [control child] at unreaped
  · exact control

/-- A step of the parent between two places that say the same. -/
theorem Control.move_parent {phase : Phase} (control : Control state)
    (before : state.phase .parent = .opening ∨
      ∃ written, state.phase .parent = .writing written)
    (after : (∃ written, phase = .writing written) ∨
      ∃ how, phase = .exited how) :
    Control (state.setPhase .parent phase) := by
  have reaped : ∀ child, (state.phase (.child child)).isReaped = true := by
    unfold Control at control
    rcases before with parent | ⟨written, parent⟩ <;>
      simpa [parent] using control
  have forked : ∀ child, (state.phase (.child child)).isForked = true := by
    intro child
    have ended := reaped child
    cases phase : state.phase (.child child) <;>
      simp_all [Phase.isReaped, Phase.isForked]
  rcases after with ⟨written, rfl⟩ | ⟨how, rfl⟩
  · simpa [Control] using reaped
  · cases how with
    | success => simpa [Control] using reaped
    | failure =>
        intro child
        exact .inr (by simpa using forked child)

/-- A step of the loop of writes. -/
theorem Control.move_writing {writer : Writer} {written : Nat} {phase : Phase}
    (control : Control state)
    (before : state.phase writer = .writing written)
    (after : (∃ written, phase = .writing written) ∨
      ∃ how, phase = .exited how) :
    Control (state.setPhase writer phase) := by
  cases writer with
  | parent => exact control.move_parent (.inr ⟨written, before⟩) after
  | child child =>
      apply control.move_child
      · rw [before]; rfl
      · rw [before]; rfl
      · rcases after with ⟨_, rfl⟩ | ⟨_, rfl⟩ <;> rfl
      · rcases after with ⟨_, rfl⟩ | ⟨_, rfl⟩ <;> rfl

/-- The child that the parent forks next has not been forked. -/
theorem Control.absent {child : Child} (control : Control state)
    (parent : state.phase .parent = .forking child) :
    state.phase (.child child) = .absent := by
  cases child with
  | first =>
      have both : ∀ child, state.phase (.child child) = .absent := by
        simpa [Control, parent] using control
      exact both .first
  | second =>
      have forked := by simpa only [Control, parent] using control
      exact forked.2.1

theorem Control.fork {child : Child} (control : Control state)
    (parent : state.phase .parent = .forking child) :
    Control
      ((state.setPhase (.child child) child.start).setPhase .parent
        child.next) := by
  cases child with
  | first =>
      have absent : ∀ child, state.phase (.child child) = .absent := by
        simpa [Control, parent] using control
      refine ⟨rfl, ?_, rfl⟩
      simp [absent]
  | second =>
      have forked : (state.phase (.child .first)).isForked = true ∧
          state.phase (.child .second) = .absent ∧
          (state.phase (.child .first)).isReaped = false := by
        simpa [Control, parent] using control
      simp only [Control, State.setPhase_phase, Child.next, if_true]
      refine ⟨?_, by omega, ?_⟩
      · have unreaped : Phase.sleeping.isReaped = false := rfl
        simp [State.unreaped, Child.start, forked.2.2, unreaped]
      · rintro (_ | _)
        · simp [forked.1]
        · rfl

theorem Control.wait {child : Child} {left : Nat} {how : Exit}
    (control : Control state)
    (parent : state.phase .parent = .waiting left)
    (ended : state.phase (.child child) = .exited how) :
    Control
      ((state.setPhase (.child child) (.reaped how)).setPhase .parent
        (nextWait left)) := by
  have both : left = state.unreaped ∧ 0 < left ∧
      ∀ child, (state.phase (.child child)).isForked = true := by
    simpa only [Control, parent] using control
  have unreaped : (state.phase (.child child)).isReaped = false := by
    rw [ended]
    rfl
  have reaped : (Phase.reaped how).isReaped = true := rfl
  have forked : ∀ other, ((state.setPhase (.child child)
      (.reaped how)).phase (.child other)).isForked = true := by
    intro other
    rw [State.setPhase_phase]
    split
    · rfl
    · exact both.2.2 other
  have counted : left = (state.setPhase (.child child)
      (.reaped how)).unreaped + 1 := by
    rw [both.1]
    cases child <;>
      simp [State.unreaped, unreaped, reaped, Nat.add_comm]
  by_cases last : left = 1
  · have none : (state.setPhase (.child child)
        (.reaped how)).unreaped = 0 := by omega
    have reaped : ∀ other, ((state.setPhase (.child child)
        (.reaped how)).phase (.child other)).isReaped = true := by
      simp only [State.unreaped, Nat.add_eq_zero_iff] at none
      rintro (_ | _)
      · simpa using none.1
      · simpa using none.2
    simpa [Control, nextWait, last] using reaped
  · simp only [Control, nextWait, last, State.setPhase_phase, if_true,
      if_false]
    refine ⟨?_, by omega, ?_⟩
    · rw [counted]
      rfl
    · simpa using forked

theorem Control.step (control : Control state)
    (taken : Taken arguments state next) : Control next := by
  cases taken with
  | create parent => simpa [Control, parent] using control
  | createFails parent =>
      have absent : ∀ child, state.phase (.child child) = .absent := by
        simpa [Control, parent] using control
      simp [Control, absent]
  | fork child parent => exact control.fork parent
  | forkFails child parent =>
      cases child with
      | first =>
          have absent : ∀ child, state.phase (.child child) = .absent := by
            simpa [Control, parent] using control
          simp [Control, absent]
      | second =>
          have forked : (state.phase (.child .first)).isForked = true ∧
              state.phase (.child .second) = .absent ∧
              (state.phase (.child .first)).isReaped = false := by
            simpa [Control, parent] using control
          simp only [Control, State.setPhase_phase, if_true]
          rintro (_ | _)
          · exact .inr (by simp [forked.1])
          · exact .inl (by simp [forked.2.1])
  | wait child left how parent ended => exact control.wait parent ended
  | waitFails left parent =>
      have both : left = state.unreaped ∧ 0 < left ∧
          ∀ child, (state.phase (.child child)).isForked = true := by
        simpa only [Control, parent] using control
      simp [Control, both.2.2]
  | wake writer asleep =>
      cases writer with
      | parent => simp [Control, asleep] at control
      | child child =>
          exact control.move_child (by rw [asleep]; rfl)
            (by rw [asleep]; rfl) rfl rfl
  | openFile writer opening =>
      cases writer with
      | parent => exact control.move_parent (.inl opening) (.inl ⟨0, rfl⟩)
      | child child =>
          exact control.move_child (by rw [opening]; rfl)
            (by rw [opening]; rfl) rfl rfl
  | openFails writer opening =>
      cases writer with
      | parent =>
          exact control.move_parent (.inl opening) (.inr ⟨.failure, rfl⟩)
      | child child =>
          exact control.move_child (by rw [opening]; rfl)
            (by rw [opening]; rfl) rfl rfl
  | write writer written stored phase more bound =>
      have moved : Control (state.setPhase writer
          (afterWrite (arguments.message writer).length written stored)) := by
        unfold afterWrite
        split
        · exact control.move_writing phase (.inl ⟨_, rfl⟩)
        · exact control.move_writing phase (.inr ⟨_, rfl⟩)
      exact moved
  | writeFails writer written phase more =>
      exact control.move_writing phase (.inr ⟨_, rfl⟩)
  | exit writer written phase done =>
      exact control.move_writing phase (.inr ⟨_, rfl⟩)

theorem control_of_reachable
    (reached : (forkWriters arguments old).Reachable state) :
    Control state := by
  refine reached.invariant Control ?_ ?_
  · rintro state rfl
    exact fun _ => rfl
  · rintro state call next _ control taken
    exact control.step (taken_of_step taken)

/-! ## What the processes have appended -/

/-- Some copies of the message, and perhaps the beginning of one more. -/
def Torn (message : List UInt8) (count : Nat)
    (pieces : List (List UInt8)) : Prop :=
  ∃ written < count, ∃ rest,
    pieces = List.replicate written message ++ rest ∧
      (rest = [] ∨ ∃ stored < message.length, rest = [message.take stored])

/-- The pieces that a process has appended when it is at a place. -/
def Appended (message : List UInt8) (count : Nat) :
    Phase → List (List UInt8) → Prop
  | .writing written, pieces =>
      written ≤ count ∧ pieces = List.replicate written message
  | .exited .success, pieces => pieces = List.replicate count message
  | .reaped .success, pieces => pieces = List.replicate count message
  | .exited .failure, pieces => Torn message count pieces
  | .reaped .failure, pieces => Torn message count pieces
  | _, pieces => pieces = []

/-- The output is made of the pieces that the processes have appended: those of
the children in some order, and those of the parent after all of them. -/
structure Layout (arguments : Arguments) (state : State)
    (pieces : Writer → List (List UInt8)) (merged : List (List UInt8)) :
    Prop where
  appended : ∀ writer, Appended (arguments.message writer) arguments.count
    (state.phase writer) (pieces writer)
  shuffled : IsShuffle (pieces (.child .first)) (pieces (.child .second))
    merged
  output : state.output = (merged ++ pieces .parent).flatten
  last : pieces .parent ≠ [] →
    ∀ child, (state.phase (.child child)).isReaped = true

namespace Layout

variable {pieces : Writer → List (List UInt8)} {merged : List (List UInt8)}

/-- A process moves and appends some pieces; the parent appends only when both
children have been waited for. -/
theorem move {writer : Writer} {phase : Phase}
    (layout : Layout arguments state pieces merged)
    (unreaped : (state.phase writer).isReaped = false)
    (more : List (List UInt8))
    (grown : Appended (arguments.message writer) arguments.count phase
      (pieces writer ++ more))
    (turn : more ≠ [] → writer = .parent →
      ∀ child, (state.phase (.child child)).isReaped = true) :
    ∃ pieces merged, Layout arguments
      { state.setPhase writer phase with
        output := state.output ++ more.flatten } pieces merged := by
  have appended : ∀ other, Appended (arguments.message other) arguments.count
      ((state.setPhase writer phase).phase other)
      (Function.update pieces writer (pieces writer ++ more) other) := by
    intro other
    rw [State.setPhase_phase, Function.update_apply]
    split
    · next same => exact same ▸ grown
    · exact layout.appended other
  cases writer with
  | parent =>
      refine ⟨Function.update pieces .parent (pieces .parent ++ more), merged,
        appended, ?_, ?_, ?_⟩
      · simpa using layout.shuffled
      · simp [layout.output]
      · intro _ child
        by_cases silent : more = []
        · simpa using layout.last (by simp_all) child
        · simpa using turn silent rfl child
  | child child =>
      have empty : pieces .parent = [] := by
        by_contra written
        simp [layout.last written child] at unreaped
      refine ⟨Function.update pieces (.child child)
          (pieces (.child child) ++ more), merged ++ more, appended, ?_, ?_,
        ?_⟩
      · cases child with
        | first => simpa using layout.shuffled.append_left more
        | second => simpa using layout.shuffled.append_right more
      · simp [layout.output, empty]
      · simp [empty]

/-- A process moves and appends nothing. -/
theorem still (layout : Layout arguments state pieces merged)
    (writer : Writer) (phase : Phase)
    (unreaped : (state.phase writer).isReaped = false)
    (same : Appended (arguments.message writer) arguments.count phase
      (pieces writer)) :
    ∃ pieces merged,
      Layout arguments (state.setPhase writer phase) pieces merged := by
  have moved := layout.move unreaped [] (by simpa using same) (by simp)
  simpa [State.setPhase] using moved

end Layout

theorem Torn.of_replicate {message : List UInt8} {count written : Nat}
    (more : written < count) :
    Torn message count (List.replicate written message) :=
  ⟨written, more, [], by simp, .inl rfl⟩

theorem Torn.of_nothing (arguments : Arguments) (message : List UInt8) :
    Torn message arguments.count [] :=
  .of_replicate arguments.positive

/-- The pieces before an append that leaves the loop of writes or goes on. -/
theorem Appended.afterWrite {message : List UInt8}
    {count written stored : Nat} {pieces : List (List UInt8)}
    (appended : Appended message count (.writing written) pieces)
    (more : written < count) (bound : stored ≤ message.length) :
    Appended message count (afterWrite message.length written stored)
      (pieces ++ [message.take stored]) := by
  rcases appended with ⟨_, rfl⟩
  unfold ForkWriters.afterWrite
  split
  · next full =>
    refine ⟨more, ?_⟩
    rw [full, List.take_length, List.replicate_succ']
  · next short =>
    exact ⟨written, more, _, rfl, .inr ⟨stored, by omega, rfl⟩⟩

/-- Nothing has been appended. -/
theorem Layout.start
    (idle : ∀ writer, Appended (arguments.message writer) arguments.count
      (state.phase writer) [])
    (empty : state.output = []) :
    ∃ pieces merged, Layout arguments state pieces merged :=
  ⟨fun _ => [], [], idle, .nil, by simp [empty], by simp⟩

section Steps

variable {pieces : Writer → List (List UInt8)} {merged : List (List UInt8)}

theorem Layout.fork {child : Child} (control : Control state)
    (layout : Layout arguments state pieces merged)
    (parent : state.phase .parent = .forking child) :
    ∃ pieces merged, Layout arguments
      ((state.setPhase (.child child) child.start).setPhase .parent
        child.next) pieces merged := by
  have absent := control.absent parent
  have started := layout.appended (.child child)
  rw [absent] at started
  have forked := layout.still (.child child) child.start
    (by rw [absent]; rfl) (by cases child <;> exact started)
  rcases forked with ⟨pieces, merged, forked⟩
  have waiting := forked.appended .parent
  rw [State.setPhase_phase, if_neg (by simp), parent] at waiting
  refine forked.still _ _ ?_ ?_
  · simp [parent, Phase.isReaped]
  · cases child <;> exact waiting

theorem Layout.wait {child : Child} {left : Nat} {how : Exit}
    (layout : Layout arguments state pieces merged)
    (parent : state.phase .parent = .waiting left)
    (ended : state.phase (.child child) = .exited how) :
    ∃ pieces merged, Layout arguments
      ((state.setPhase (.child child) (.reaped how)).setPhase .parent
        (nextWait left)) pieces merged := by
  have exited := layout.appended (.child child)
  rw [ended] at exited
  have reaped := layout.still (.child child) (.reaped how)
    (by rw [ended]; rfl) (by cases how <;> exact exited)
  rcases reaped with ⟨pieces, merged, reaped⟩
  have waiting := reaped.appended .parent
  rw [State.setPhase_phase, if_neg (by simp), parent] at waiting
  refine reaped.still _ _ ?_ ?_
  · simp [parent, Phase.isReaped]
  · unfold nextWait
    split <;> exact waiting

theorem Layout.write {writer : Writer} {written stored : Nat}
    (control : Control state) (layout : Layout arguments state pieces merged)
    (phase : state.phase writer = .writing written)
    (more : written < arguments.count)
    (bound : stored ≤ (arguments.message writer).length) :
    ∃ pieces merged, Layout arguments
      { state.setPhase writer
          (afterWrite (arguments.message writer).length written stored) with
        output := state.output ++ (arguments.message writer).take stored }
      pieces merged := by
  have appended := layout.appended writer
  rw [phase] at appended
  have moved := layout.move (by rw [phase]; rfl)
    [(arguments.message writer).take stored] (appended.afterWrite more bound)
    (fun _ parent => by
      rw [parent] at phase
      simpa [Control, phase] using control)
  simpa using moved

theorem Layout.step (control : Control state)
    (layout : Layout arguments state pieces merged)
    (taken : Taken arguments state next) :
    ∃ pieces merged, Layout arguments next pieces merged := by
  -- a process that has appended nothing yet may fail
  have fails : ∀ writer, Appended (arguments.message writer) arguments.count
      (state.phase writer) (pieces writer) → pieces writer = [] →
        (state.phase writer).isReaped = false →
          ∃ pieces merged, Layout arguments
            (state.setPhase writer (.exited .failure)) pieces merged := by
    intro writer _ empty unreaped
    refine layout.still _ _ unreaped ?_
    rw [empty]
    exact .of_nothing arguments _
  have parentIdle := layout.appended .parent
  cases taken with
  | create parent =>
      have absent : ∀ child, state.phase (.child child) = .absent := by
        simpa [Control, parent] using control
      refine Layout.start ?_ rfl
      rintro (_ | child)
      · rfl
      · simp [absent, Appended]
  | createFails parent =>
      rw [parent] at parentIdle
      exact fails .parent (layout.appended _) parentIdle (by rw [parent]; rfl)
  | fork child parent => exact layout.fork control parent
  | forkFails child parent =>
      rw [parent] at parentIdle
      exact fails .parent (layout.appended _) parentIdle (by rw [parent]; rfl)
  | wait child left how parent ended => exact layout.wait parent ended
  | waitFails left parent =>
      rw [parent] at parentIdle
      exact fails .parent (layout.appended _) parentIdle (by rw [parent]; rfl)
  | wake writer asleep =>
      have idle := layout.appended writer
      rw [asleep] at idle
      exact layout.still _ _ (by rw [asleep]; rfl) idle
  | openFile writer opening =>
      have idle := layout.appended writer
      rw [opening] at idle
      exact layout.still _ _ (by rw [opening]; rfl) ⟨Nat.zero_le _, idle⟩
  | openFails writer opening =>
      have idle := layout.appended writer
      rw [opening] at idle
      exact fails writer (layout.appended _) idle (by rw [opening]; rfl)
  | write writer written stored phase more bound =>
      exact layout.write control phase more bound
  | writeFails writer written phase more =>
      have appended := layout.appended writer
      rw [phase] at appended
      refine layout.still _ _ (by rw [phase]; rfl) ?_
      rw [appended.2]
      exact .of_replicate more
  | exit writer written phase done =>
      have appended := layout.appended writer
      rw [phase] at appended
      refine layout.still _ _ (by rw [phase]; rfl) ?_
      rw [appended.2, Nat.le_antisymm appended.1 done]
      rfl

end Steps

/-- The file has not been created, or could not be. -/
structure Untouched (old : List UInt8) (state : State) : Prop where
  parent : state.phase .parent = .creating ∨
    state.phase .parent = .exited .failure
  absent : ∀ child, state.phase (.child child) = .absent
  output : state.output = old

theorem Untouched.step (untouched : Untouched old state)
    (taken : Taken arguments state next) :
    Untouched old next ∨
      ∃ pieces merged, Layout arguments next pieces merged := by
  have absent := untouched.absent
  have idle : ∀ writer, state.phase writer = .creating ∨
      state.phase writer = .exited .failure ∨
      state.phase writer = .absent := by
    rintro (_ | child)
    · exact untouched.parent.elim .inl (.inr ∘ .inl)
    · exact .inr (.inr (absent child))
  cases taken with
  | create parent =>
      refine .inr (Layout.start ?_ rfl)
      rintro (_ | child)
      · rfl
      · simp [absent, Appended]
  | createFails parent =>
      exact .inl ⟨.inr (by simp), by simpa using absent, untouched.output⟩
  | fork child parent => simpa [parent] using idle .parent
  | forkFails child parent => simpa [parent] using idle .parent
  | wait child left how parent ended => simpa [parent] using idle .parent
  | waitFails left parent => simpa [parent] using idle .parent
  | wake writer asleep => simpa [asleep] using idle writer
  | openFile writer opening => simpa [opening] using idle writer
  | openFails writer opening => simpa [opening] using idle writer
  | write writer written stored phase more bound =>
      simpa [phase] using idle writer
  | writeFails writer written phase more => simpa [phase] using idle writer
  | exit writer written phase done => simpa [phase] using idle writer

/-- In every run, the file is as it was or has the layout. -/
theorem layout_of_reachable
    (reached : (forkWriters arguments old).Reachable state) :
    Untouched old state ∨
      ∃ pieces merged, Layout arguments state pieces merged := by
  refine reached.invariant (fun state => Untouched old state ∨
    ∃ pieces merged, Layout arguments state pieces merged) ?_ ?_
  · rintro state rfl
    exact .inl ⟨.inl rfl, fun _ => rfl, rfl⟩
  · intro state call next before laid taken
    rcases laid with untouched | ⟨pieces, merged, layout⟩
    · exact untouched.step (taken_of_step taken)
    · exact .inr (layout.step (control_of_reachable before)
        (taken_of_step taken))

end OSCourse.ForkWriters
