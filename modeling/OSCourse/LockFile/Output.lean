import OSCourse.LockFile.Exclusion

/-!
# What reaches the output

Whatever standard output is and however the steps interleave, a child's bytes
on the output followed by those in its buffer are what it has printed.
-/

namespace OSCourse.LockFile

open OSCourse.Library.Blocks
open OSCourse.Library.TransitionSystem

variable {n : Nat} {arguments : Arguments n} {stdout : Stdout}

/-! ## Lines -/

@[simp]
theorem lines_zero (arguments : Arguments n) (i : Fin n) :
    arguments.lines i 0 = [] :=
  rfl

theorem lines_succ (arguments : Arguments n) (i : Fin n) (printed : Nat) :
    arguments.lines i (printed + 1) =
      arguments.lines i printed ++ arguments.line i := by
  simp [Arguments.lines, List.replicate_succ']

theorem block_ne_nil (arguments : Arguments n) (i : Fin n) :
    arguments.block i ≠ [] := by
  have positive := arguments.positive
  cases count : arguments.count with
  | zero => omega
  | succ less =>
      rw [Arguments.block, count, lines_succ]
      simp [Arguments.line]

/-! ## Nothing is lost -/

/-- How often a child has printed its message. -/
def Phase.printed (count : Nat) : Phase → Nat
  | .absent => 0
  | .acquiring => 0
  | .writing printed => printed
  | .exiting how => if how = .success then count else 0
  | .exited how => if how = .success then count else 0
  | .reaped how => if how = .success then count else 0

/-- The child can have something in its buffer. -/
def Phase.isBuffering : Phase → Bool
  | .writing _ => true
  | .exiting _ => true
  | _ => false

/-- How a child has called `exit`. -/
def Phase.exit? : Phase → Option Exit
  | .exiting how => some how
  | .exited how => some how
  | .reaped how => some how
  | _ => none

/-- What a child has printed is on the output or in its buffer, and no child
has failed to remove the lock file. -/
structure Ledger (arguments : Arguments n) (stdout : Stdout)
    (state : State n) : Prop where
  bytes : ∀ i, itemsOf i state.output ++ (state.child i).buffer =
    arguments.lines i ((state.child i).phase.printed arguments.count)
  bound : ∀ i printed, (state.child i).phase = .writing printed →
    printed ≤ arguments.count
  flushed : ∀ i, (state.child i).phase.isBuffering = false →
    (state.child i).buffer = []
  unbuffered : stdout = .terminal → ∀ i, (state.child i).buffer = []
  released : ∀ i, (state.child i).phase.exit? ≠ some .releaseError

/-- One child moves. -/
theorem Ledger.move
    {state : State n} (ledger : Ledger arguments stdout state) (i : Fin n)
    (child : Child) (items : List UInt8) {next : State n}
    (children : next.child = Function.update state.child i child)
    (output : next.output = state.output ++ signed i items)
    (bytes : itemsOf i state.output ++ (items ++ child.buffer) =
      arguments.lines i (child.phase.printed arguments.count))
    (bound : ∀ printed, child.phase = .writing printed →
      printed ≤ arguments.count)
    (flushed : child.phase.isBuffering = false → child.buffer = [])
    (unbuffered : stdout = .terminal → child.buffer = [])
    (released : child.phase.exit? ≠ some .releaseError) :
    Ledger arguments stdout next := by
  constructor
  case bytes =>
    intro j
    rw [children, output, itemsOf_append]
    by_cases equal : j = i
    · subst equal
      simpa using bytes
    · rw [Function.update_of_ne equal, itemsOf_signed_of_ne (Ne.symm equal),
        List.append_nil]
      exact ledger.bytes j
  case bound =>
    intro j printed
    rw [children]
    by_cases equal : j = i
    · subst equal
      simpa using bound printed
    · rw [Function.update_of_ne equal]
      exact ledger.bound j printed
  case flushed =>
    intro j
    rw [children]
    by_cases equal : j = i
    · subst equal
      simpa using flushed
    · rw [Function.update_of_ne equal]
      exact ledger.flushed j
  case unbuffered =>
    intro terminal j
    rw [children]
    by_cases equal : j = i
    · subst equal
      simpa using unbuffered terminal
    · rw [Function.update_of_ne equal]
      exact ledger.unbuffered terminal j
  case released =>
    intro j
    rw [children]
    by_cases equal : j = i
    · subst equal
      simpa using released
    · rw [Function.update_of_ne equal]
      exact ledger.released j

/-- One child moves and writes nothing out. -/
theorem Ledger.silent
    {state : State n} (ledger : Ledger arguments stdout state) (i : Fin n)
    (phase : Phase) {next : State n}
    (children : next.child = Function.update state.child i
      { state.child i with phase := phase })
    (output : next.output = state.output)
    (printed : phase.printed arguments.count =
      (state.child i).phase.printed arguments.count)
    (quiet : phase.isBuffering = (state.child i).phase.isBuffering ∨
      phase.isBuffering = true)
    (bound : ∀ printed, phase = .writing printed →
      printed ≤ arguments.count)
    (released : phase.exit? ≠ some .releaseError) :
    Ledger arguments stdout next := by
  refine ledger.move i _ [] children (by simp [output]) ?_ bound ?_
    (fun terminal => ledger.unbuffered terminal i) released
  · rw [List.nil_append, printed]
    exact ledger.bytes i
  · intro silent
    rcases quiet with same | loud
    · exact ledger.flushed i (same.symm.trans silent)
    · rw [loud] at silent
      cases silent

/-- A step of the parent that moves no child. -/
theorem Ledger.same
    {state next : State n} (ledger : Ledger arguments stdout state)
    (children : next.child = state.child)
    (output : next.output = state.output) :
    Ledger arguments stdout next := by
  constructor
  case bytes => simpa [children, output] using ledger.bytes
  case bound => simpa [children] using ledger.bound
  case flushed => simpa [children] using ledger.flushed
  case unbuffered => simpa [children] using ledger.unbuffered
  case released => simpa [children] using ledger.released

theorem ledger_taken
    {state next : State n}
    (counted : Counted state.parent state.stage) (locked : Locked state)
    (ledger : Ledger arguments stdout state)
    (taken : Taken arguments stdout state next) :
    Ledger arguments stdout next := by
  cases taken with
  | unlinkFirst parent =>
      exact ledger.same rfl rfl
  | unlinkLast parent =>
      exact ledger.same rfl rfl
  | fork i parent =>
      have unborn := (counted.forking _ parent).2 i
      rw [if_neg (lt_irrefl _)] at unborn
      have absent : (state.child i).phase = .absent := by
        unfold State.stage at unborn
        cases phase : (state.child i).phase <;> rw [phase] at unborn <;>
          first | rfl | cases unborn
      refine ledger.move i ⟨.acquiring, []⟩ [] rfl (by simp [State.setChild])
        ?_ (by simp) (by simp) (fun _ => rfl) (by simp [Phase.exit?])
      have bytes := ledger.bytes i
      rw [absent, ledger.flushed i (by rw [absent]; rfl)] at bytes
      simpa [Phase.printed] using bytes
  | forkFails child parent =>
      exact ledger.same rfl rfl
  | wait i how child parent phase =>
      refine ledger.silent i (.reaped how) rfl rfl ?_ (.inl ?_) (by simp) ?_
      · rw [phase]
        rfl
      · rw [phase]
        rfl
      · have released := ledger.released i
        rw [phase] at released
        exact released
  | waitFails child parent none =>
      exact ledger.same rfl rfl
  | openLock i phase =>
      unfold openLock
      split
      · exact ledger
      · refine ledger.silent i (.writing 0) rfl rfl ?_ (.inr rfl) ?_
          (by simp [Phase.exit?])
        · rw [phase]
          rfl
        · rintro _ ⟨⟩
          exact Nat.zero_le _
  | openFails i phase =>
      refine ledger.silent i (.exiting .acquireError) rfl rfl ?_ (.inr rfl)
        (by simp) (by simp [Phase.exit?])
      rw [phase]
      rfl
  | printf i printed phase more room =>
      have bytes := ledger.bytes i
      rw [phase] at bytes
      have bound : ∀ after, Phase.writing (printed + 1) = .writing after →
          after ≤ arguments.count := by
        rintro _ ⟨⟩
        exact more
      unfold printf
      split
      · have empty := ledger.unbuffered rfl i
        refine ledger.move i _ _ rfl rfl ?_ bound
          (by simp [Phase.isBuffering]) (fun _ => empty)
          (by simp [Phase.exit?])
        simp only [empty, List.append_nil, Phase.printed] at bytes ⊢
        rw [bytes, lines_succ]
      · refine ledger.move i _ [] rfl (by simp [State.setChild]) ?_ bound
          (by simp [Phase.isBuffering]) (by simp) (by simp [Phase.exit?])
        simp only [List.nil_append, Phase.printed] at bytes ⊢
        rw [← List.append_assoc, bytes, lines_succ]
  | writeOut i printed phase full =>
      unfold writeOut
      split
      · exact ledger
      · refine ledger.move i _ _ rfl rfl ?_ (ledger.bound i) ?_ (by simp)
          (ledger.released i)
        · rw [List.take_append_drop]
          exact ledger.bytes i
        · rw [phase]
          simp [Phase.isBuffering]
  | unlinkLock i printed phase done room =>
      have started := counted.started (Holds.alive ⟨printed, phase⟩)
      have held := (locked.lock started).mpr ⟨i, printed, phase⟩
      unfold unlinkLock
      rw [if_pos held]
      refine ledger.silent i (.exiting .success) rfl rfl ?_ (.inr rfl)
        (by simp) (by simp [Phase.exit?])
      have all := ledger.bound i printed phase
      rw [phase]
      simp only [Phase.printed, if_true]
      omega
  | exit i how phase =>
      refine ledger.move i ⟨.exited how, []⟩ _ rfl rfl ?_ (by simp)
        (by simp) (fun _ => rfl) ?_
      · have bytes := ledger.bytes i
        rw [phase] at bytes
        simpa [Phase.printed] using bytes
      · have released := ledger.released i
        rw [phase] at released
        exact released

end OSCourse.LockFile
