import OSCourse.ForkWriters.Layout

/-!
# The outcomes of the program

When the parent ends with status 0, the file holds any shuffle of what the two
children have appended, and nothing else, followed by the copies of the parent.
The sleep of the second child excludes no order.
-/

namespace OSCourse.ForkWriters

open OSCourse.Library.Shuffle
open OSCourse.Library.TransitionSystem

variable {arguments : Arguments} {state : State} {old : List UInt8}

/-- What the file may hold when the children end as `how` says: the pieces of
the children in any order that keeps those of each, then those of the parent. -/
def Outcome (arguments : Arguments) (how : Child → Exit)
    (content : List UInt8) : Prop :=
  ∃ (pieces : Child → List (List UInt8)) (merged : List (List UInt8)),
    (∀ child, Appended (arguments.message (.child child)) arguments.count
      (.exited (how child)) (pieces child)) ∧
    IsShuffle (pieces .first) (pieces .second) merged ∧
    content = merged.flatten ++
      (List.replicate arguments.count (arguments.message .parent)).flatten

/-! ## Every outcome is reached -/

/-- A process at a place can append the pieces and end as `how` says. -/
inductive Remaining (message : List UInt8) (count : Nat) (how : Exit) :
    Phase → List (List UInt8) → Prop where
  | exited : Remaining message count how (.exited how) []
  | done (success : how = .success) :
      Remaining message count how (.writing count) []
  | stop {written : Nat} (failure : how = .failure) (more : written < count) :
      Remaining message count how (.writing written) []
  | torn {written stored : Nat} (failure : how = .failure)
      (more : written < count) (short : stored < message.length) :
      Remaining message count how (.writing written) [message.take stored]
  | copy {written : Nat} {rest : List (List UInt8)} (more : written < count)
      (remaining : Remaining message count how (.writing (written + 1)) rest) :
      Remaining message count how (.writing written) (message :: rest)

theorem Remaining.copies {message : List UInt8} {count written : Nat}
    {how : Exit} {rest : List (List UInt8)} (copies : Nat)
    (bound : written + copies ≤ count)
    (remaining : Remaining message count how (.writing (written + copies))
      rest) :
    Remaining message count how (.writing written)
      (List.replicate copies message ++ rest) := by
  induction copies generalizing written with
  | zero => exact remaining
  | succ copies induction =>
      refine .copy (by omega) (induction (by omega) ?_)
      rwa [Nat.add_right_comm]

theorem Appended.remaining {message : List UInt8} {count : Nat} {how : Exit}
    {pieces : List (List UInt8)}
    (appended : Appended message count (.exited how) pieces) :
    Remaining message count how (.writing 0) pieces := by
  cases how with
  | success =>
      have copies : Remaining message count .success (.writing 0)
          (List.replicate count message ++ []) :=
        .copies count (by omega) (by rw [Nat.zero_add]; exact .done rfl)
      rw [List.append_nil] at copies
      exact appended ▸ copies
  | failure =>
      rcases appended with
        ⟨written, more, rest, rfl, rfl | ⟨stored, short, rfl⟩⟩
      · exact .copies written (by omega) (by
          rw [Nat.zero_add]
          exact .stop rfl more)
      · exact .copies written (by omega) (by
          rw [Nat.zero_add]
          exact .torn rfl more short)

/-- What the run does to one process and to the output. -/
structure Moves (writer : Writer) (phase : Phase) (written : List UInt8)
    (before after : State) : Prop where
  phase : after.phase writer = phase
  output : after.output = before.output ++ written
  others : ∀ other, other ≠ writer → after.phase other = before.phase other

theorem reach {next : State}
    (reached : (forkWriters arguments old).Reachable state) (call : Call)
    (taken : step arguments state call = some next) :
    (forkWriters arguments old).Reachable next :=
  .step reached taken

/-- A process that has nothing left to append ends. -/
theorem Remaining.finish {writer : Writer} {how : Exit}
    (reached : (forkWriters arguments old).Reachable state)
    (remaining : Remaining (arguments.message writer) arguments.count how
      (state.phase writer) []) :
    ∃ next, (forkWriters arguments old).Reachable next ∧
      Moves writer (.exited how) [] state next := by
  generalize place : state.phase writer = phase at remaining
  cases remaining with
  | exited => exact ⟨state, reached, place, by simp, fun _ _ => rfl⟩
  | done success =>
      refine ⟨state.setPhase writer (.exited .success),
        reach reached (.exit writer) ?_, by simp [success], by simp,
        fun other apart => by simp [apart]⟩
      simp [step, mainStep, writerStep, place]
  | stop failure more =>
      refine ⟨state.setPhase writer (.exited .failure),
        reach reached (.writeFails writer) ?_, by simp [failure],
        by simp, fun other apart => by simp [apart]⟩
      simp [step, mainStep, writerStep, place, more]

/-- A process appends its next piece. -/
theorem Remaining.append {writer : Writer} {how : Exit} {piece : List UInt8}
    {rest : List (List UInt8)}
    (reached : (forkWriters arguments old).Reachable state)
    (remaining : Remaining (arguments.message writer) arguments.count how
      (state.phase writer) (piece :: rest)) :
    ∃ next phase, (forkWriters arguments old).Reachable next ∧
      Moves writer phase piece state next ∧
      Remaining (arguments.message writer) arguments.count how phase rest := by
  generalize place : state.phase writer = phase at remaining
  cases remaining with
  | @torn written stored failure more short =>
      refine ⟨{ state.setPhase writer (.exited .failure) with
            output := state.output ++
              (arguments.message writer).take stored },
        .exited .failure, reach reached (.write writer stored) ?_,
        ⟨by simp, rfl, fun other apart => by simp [apart]⟩,
        failure ▸ .exited⟩
      have bound : stored ≤ (arguments.message writer).length := by omega
      have cut : stored ≠ (arguments.message writer).length := by omega
      simp [step, mainStep, writerStep, place, more, bound,
        afterWrite, cut]
  | @copy written _ more remaining =>
      refine ⟨{ state.setPhase writer (.writing (written + 1)) with
            output := state.output ++ arguments.message writer },
        .writing (written + 1),
        reach reached (.write writer (arguments.message writer).length) ?_,
        ⟨by simp, rfl, fun other apart => by simp [apart]⟩, remaining⟩
      simp [step, mainStep, writerStep, place, more, afterWrite]

/-- One process appends all its pieces and ends. -/
theorem Remaining.complete {writer : Writer} {how : Exit}
    {pieces : List (List UInt8)}
    (reached : (forkWriters arguments old).Reachable state)
    (remaining : Remaining (arguments.message writer) arguments.count how
      (state.phase writer) pieces) :
    ∃ next, (forkWriters arguments old).Reachable next ∧
      Moves writer (.exited how) pieces.flatten state next := by
  induction pieces generalizing state with
  | nil => exact remaining.finish reached
  | cons piece rest induction =>
      rcases remaining.append reached with
        ⟨middle, phase, reached, moved, remaining⟩
      rw [← moved.phase] at remaining
      rcases induction reached remaining with ⟨next, reached, completed⟩
      refine ⟨next, reached, completed.phase, ?_, ?_⟩
      · rw [completed.output, moved.output, List.flatten_cons,
          List.append_assoc]
      · intro other apart
        rw [completed.others other apart, moved.others other apart]

/-- The children append their pieces in the order of the shuffle and end. -/
theorem children_complete {how : Child → Exit}
    {first second merged : List (List UInt8)}
    (shuffle : IsShuffle first second merged)
    (reached : (forkWriters arguments old).Reachable state)
    (remainingFirst : Remaining (arguments.message (.child .first))
      arguments.count (how .first) (state.phase (.child .first)) first)
    (remainingSecond : Remaining (arguments.message (.child .second))
      arguments.count (how .second) (state.phase (.child .second)) second) :
    ∃ next, (forkWriters arguments old).Reachable next ∧
      (∀ child, next.phase (.child child) = .exited (how child)) ∧
      next.phase .parent = state.phase .parent ∧
      next.output = state.output ++ merged.flatten := by
  induction shuffle generalizing state with
  | nil =>
      rcases remainingFirst.finish reached with ⟨middle, reached, ended⟩
      rw [← ended.others _ (by simp)] at remainingSecond
      rcases remainingSecond.finish reached with ⟨next, reached, both⟩
      refine ⟨next, reached, ?_, ?_, ?_⟩
      · rintro (_ | _)
        · rw [both.others _ (by simp), ended.phase]
        · exact both.phase
      · rw [both.others _ (by simp), ended.others _ (by simp)]
      · rw [both.output, ended.output]
        simp
  | left rest induction =>
      rcases remainingFirst.append reached with
        ⟨middle, phase, reached, moved, remaining⟩
      rw [← moved.phase] at remaining
      rw [← moved.others _ (by simp)] at remainingSecond
      rcases induction reached remaining remainingSecond with
        ⟨next, reached, ended, parent, output⟩
      refine ⟨next, reached, ended, ?_, ?_⟩
      · rw [parent, moved.others _ (by simp)]
      · rw [output, moved.output, List.flatten_cons, List.append_assoc]
  | right rest induction =>
      rcases remainingSecond.append reached with
        ⟨middle, phase, reached, moved, remaining⟩
      rw [← moved.phase] at remaining
      rw [← moved.others _ (by simp)] at remainingFirst
      rcases induction reached remainingFirst remaining with
        ⟨next, reached, ended, parent, output⟩
      refine ⟨next, reached, ended, ?_, ?_⟩
      · rw [parent, moved.others _ (by simp)]
      · rw [output, moved.output, List.flatten_cons, List.append_assoc]

/-- Both children have opened the file. -/
theorem reach_children (arguments : Arguments) (old : List UInt8) :
    ∃ state, (forkWriters arguments old).Reachable state ∧
      (∀ child, state.phase (.child child) = .writing 0) ∧
      state.phase .parent = .waiting 2 ∧ state.output = [] := by
  have run : ∃ state,
      [Call.create, .fork, .fork, .wake (.child .second),
        .openFile (.child .first), .openFile (.child .second)].foldlM
          (step arguments) (started old) = some state ∧
        (∀ child, state.phase (.child child) = .writing 0) ∧
        state.phase .parent = .waiting 2 ∧ state.output = [] := by
    refine ⟨_, rfl, ?_, rfl, rfl⟩
    rintro (_ | _) <;> rfl
  rcases run with ⟨state, run, facts⟩
  exact ⟨state, .of_run (fun _ _ _ => id) (.start rfl) run, facts⟩

/-- The parent has waited for both children and has opened the file. -/
theorem reach_parent {how : Child → Exit}
    (reached : (forkWriters arguments old).Reachable state)
    (ended : ∀ child, state.phase (.child child) = .exited (how child))
    (parent : state.phase .parent = .waiting 2) :
    ∃ next, (forkWriters arguments old).Reachable next ∧
      (∀ child, next.phase (.child child) = .reaped (how child)) ∧
      next.phase .parent = .writing 0 ∧ next.output = state.output := by
  have run : ∃ next,
      [Call.wait .first, .wait .second, .openFile .parent].foldlM
          (step arguments) state = some next ∧
        (∀ child, next.phase (.child child) = .reaped (how child)) ∧
        next.phase .parent = .writing 0 ∧ next.output = state.output := by
    simp [step, mainStep, writerStep, parent, ended, nextWait]
    rintro (_ | _) <;> simp
  rcases run with ⟨next, run, facts⟩
  exact ⟨next, .of_run (fun _ _ _ => id) reached run, facts⟩

/--
The content that `output.txt` can have when the parent has ended with status 0
and the children have ended as `how` says: exactly the outcomes.
-/
theorem outcome_iff (arguments : Arguments) (old : List UInt8)
    (how : Child → Exit) (content : List UInt8) :
    (∃ state, (forkWriters arguments old).Reachable state ∧
      state.phase .parent = .exited .success ∧
      (∀ child, state.phase (.child child) = .reaped (how child)) ∧
      state.output = content) ↔
    Outcome arguments how content := by
  constructor
  · rintro ⟨state, reached, parent, reaped, rfl⟩
    rcases layout_of_reachable reached with untouched | ⟨pieces, merged, layout⟩
    · rcases untouched.parent with creating | failed
      · simp [parent] at creating
      · simp [parent] at failed
    · have written := layout.appended .parent
      rw [parent] at written
      refine ⟨fun child => pieces (.child child), merged, ?_, layout.shuffled,
        ?_⟩
      · intro child
        have appended := layout.appended (.child child)
        rw [reaped] at appended
        revert appended
        cases how child <;> exact id
      · rw [layout.output, List.flatten_append, written]
  · rintro ⟨pieces, merged, appended, shuffle, rfl⟩
    rcases reach_children arguments old with
      ⟨forked, reached, writing, waiting, empty⟩
    have remaining : ∀ child, Remaining (arguments.message (.child child))
        arguments.count (how child) (forked.phase (.child child))
        (pieces child) := by
      intro child
      rw [writing]
      exact (appended child).remaining
    rcases children_complete shuffle reached (remaining .first)
        (remaining .second) with ⟨ended, reached, exits, parent, output⟩
    rcases reach_parent reached exits (parent.trans waiting) with
      ⟨joined, reached, reaped, writing, same⟩
    have copies : Remaining (arguments.message .parent) arguments.count
        .success (joined.phase .parent)
        (List.replicate arguments.count (arguments.message .parent)) := by
      rw [writing]
      exact Appended.remaining rfl
    rcases copies.complete reached with ⟨last, reached, completed⟩
    refine ⟨last, reached, completed.phase, ?_, ?_⟩
    · intro child
      rw [completed.others _ (by simp), reaped]
    · rw [completed.output, same, output, empty, List.nil_append]

end OSCourse.ForkWriters
