import OSCourse.LockFile.Output

/-!
# Whole blocks

On a terminal only the holder of the lock writes, and the children's blocks
come out whole.  Fully buffered, a child writes the end of its block when it
exits, after it has removed the lock file.  The blocks then come out whole in
every run exactly when each of them fits in the buffer, or there is only one
child.
-/

namespace OSCourse.LockFile

open OSCourse.Library.Blocks
open OSCourse.Library.TransitionSystem

variable {n : Nat} {arguments : Arguments n} {stdout : Stdout}

/-! ## The invariant of every run -/

/-- What holds in every run, whatever standard output is. -/
structure Kept (arguments : Arguments n) (stdout : Stdout)
    (state : State n) : Prop where
  counted : Counted state.parent state.stage
  locked : Locked state
  ledger : Ledger arguments stdout state

theorem kept_started {state : State n} (started : Started state) :
    Kept arguments stdout state := by
  have nobody : ∀ i, ¬ Holds state i := by
    rintro i ⟨printed, phase⟩
    rw [started.children i] at phase
    cases phase
  constructor
  case counted =>
    constructor
    case unlinking =>
      intro _ i
      simp [State.stage, started.children i, Phase.stage]
    case forking => simp [started.parent]
    case waiting => simp [started.parent]
    case cleaned => simp [started.parent]
  case locked =>
    refine ⟨?_, ?_⟩
    · intro i _ holds
      exact absurd holds (nobody i)
    · intro later
      exact absurd started.parent later
  case ledger =>
    constructor
    case bytes => simp [started.output, started.children, Phase.printed]
    case bound => simp [started.children]
    case flushed => simp [started.children]
    case unbuffered => simp [started.children]
    case released => simp [started.children, Phase.exit?]

theorem kept_of_reachable {state : State n}
    (reached : (writers arguments stdout).Reachable state) :
    Kept arguments stdout state := by
  refine reached.invariant (Kept arguments stdout)
    (fun _ started => kept_started started) ?_
  intro state call next _ kept ran
  have taken := taken_of_step ran
  exact ⟨counted_taken kept.counted taken,
    locked_taken kept.counted kept.locked taken,
    ledger_taken kept.counted kept.locked kept.ledger taken⟩

/-- A child that has printed nothing has written nothing. -/
theorem Ledger.itemsOf_eq_nil
    {state : State n} (ledger : Ledger arguments stdout state) {i : Fin n}
    (silent : (state.child i).phase.printed arguments.count = 0) :
    itemsOf i state.output = [] ∧ (state.child i).buffer = [] := by
  have bytes := ledger.bytes i
  rw [silent, lines_zero, List.append_eq_nil_iff] at bytes
  exact bytes

/-! ## Who writes -/

/-- The holder of the lock writes. -/
def HolderWrites (stdout : Stdout) (state next : State n) : Prop :=
  ∃ i items, Holds state i ∧ (∀ j, Holds next j → Holds state j) ∧
    next.output = state.output ++ signed i items ∧
    (stdout = .terminal ∨ stdout.overflows (state.child i).buffer = true)

/-- A child that has removed the lock file writes out its buffer. -/
def ExitWrites (state next : State n) : Prop :=
  ∃ i how, (state.child i).phase = .exiting how ∧
    (∀ j, Holds next j → Holds state j) ∧
    next.output = state.output ++ signed i (state.child i).buffer

/-- Nobody writes; a child may have taken the lock. -/
def NobodyWrites (state next : State n) : Prop :=
  next.output = state.output ∧
    ∀ i, Holds next i → Holds state i ∨ (state.child i).phase = .acquiring

theorem holds_of_update {state next : State n} (i : Fin n) (child : Child)
    (children : next.child = Function.update state.child i child)
    (before : ∀ printed, child.phase = .writing printed → Holds state i) :
    ∀ j, Holds next j → Holds state j := by
  rintro j ⟨printed, phase⟩
  rw [children] at phase
  by_cases equal : j = i
  · subst equal
    rw [Function.update_self] at phase
    exact before printed phase
  · rw [Function.update_of_ne equal] at phase
    exact ⟨printed, phase⟩

theorem writes_taken {state next : State n}
    (taken : Taken arguments stdout state next) :
    NobodyWrites state next ∨ HolderWrites stdout state next ∨
      ExitWrites state next := by
  have silent : next.output = state.output →
      (∀ j, Holds next j → Holds state j) → NobodyWrites state next :=
    fun output holders => ⟨output, fun j holds => .inl (holders j holds)⟩
  cases taken with
  | unlinkFirst parent => exact .inl (silent rfl fun _ holds => holds)
  | unlinkLast parent => exact .inl (silent rfl fun _ holds => holds)
  | fork i parent =>
      exact .inl (silent rfl (holds_of_update i _ rfl (by simp)))
  | forkFails child parent => exact .inl (silent rfl fun _ holds => holds)
  | wait i how child parent phase =>
      exact .inl (silent rfl (holds_of_update i _ rfl (by simp)))
  | waitFails child parent none =>
      exact .inl (silent rfl fun _ holds => holds)
  | openLock i phase =>
      left
      unfold openLock
      split
      · exact ⟨rfl, fun _ holds => .inl holds⟩
      · refine ⟨rfl, ?_⟩
        rintro j ⟨printed, holds⟩
        by_cases equal : j = i
        · subst equal
          exact .inr phase
        · left
          refine ⟨printed, ?_⟩
          simpa [State.setChild, Function.update_of_ne equal] using holds
  | openFails i phase =>
      exact .inl (silent rfl (holds_of_update i _ rfl (by simp)))
  | printf i printed phase more room =>
      have holds : Holds state i := ⟨printed, phase⟩
      unfold printf
      split
      · right
        left
        exact ⟨i, _, holds,
          holds_of_update i _ rfl (fun _ _ => holds), rfl, .inl rfl⟩
      · left
        exact ⟨rfl, fun j held =>
          .inl (holds_of_update i _ rfl (fun _ _ => holds) j held)⟩
  | writeOut i printed phase full =>
      have holds : Holds state i := ⟨printed, phase⟩
      unfold writeOut
      split
      · cases full
      · right
        left
        exact ⟨i, _, holds,
          holds_of_update i _ rfl (fun _ _ => holds), rfl, .inr full⟩
  | unlinkLock i printed phase done room =>
      left
      unfold unlinkLock
      split
      all_goals
        exact ⟨rfl, fun j held =>
          .inl (holds_of_update i _ rfl (by simp) j held)⟩
  | exit i how phase =>
      right
      right
      exact ⟨i, how, phase, holds_of_update i _ rfl (by simp), rfl⟩

/-! ## Only the holder writes -/

/-- The blocks are whole so far, and the holder of the lock has not written or
was the last to write. -/
structure Whole (state : State n) : Prop where
  contiguous : Contiguous state.output
  holder : ∀ i, Holds state i →
    itemsOf i state.output = [] ∨ LastWriter i state.output

theorem Whole.taken
    {state next : State n} (whole : Whole state)
    (kept : Kept arguments stdout state)
    (settled : ∀ i how, (state.child i).phase = .exiting how →
      (state.child i).buffer = [])
    (taken : Taken arguments stdout state next) : Whole next := by
  rcases writes_taken taken with
    ⟨output, holders⟩ | ⟨i, items, holds, holders, output, _⟩ |
      ⟨i, how, phase, holders, output⟩
  · refine ⟨by rw [output]; exact whole.contiguous, ?_⟩
    intro i holds
    rw [output]
    rcases holders i holds with held | acquiring
    · exact whole.holder i held
    · left
      exact (kept.ledger.itemsOf_eq_nil (by rw [acquiring]; rfl)).1
  · constructor
    case contiguous =>
      rw [output]
      rcases whole.holder i holds with fresh | last
      · exact whole.contiguous.append_new fresh items
      · exact whole.contiguous.append_last last items
    case holder =>
      intro j held
      have same := kept.locked.alone j i (holders j held) holds
      subst same
      rw [output]
      by_cases written : items = []
      · simpa [written] using whole.holder j holds
      · exact .inr (lastWriter_append_signed j _ written)
  · rw [settled i how phase, signed_nil, List.append_nil] at output
    refine ⟨by rw [output]; exact whole.contiguous, ?_⟩
    intro j held
    rw [output]
    exact whole.holder j (holders j held)

/-! ## The law -/

/-- Every child that was forked has come to its end. -/
def Ended (state : State n) : Prop :=
  ∀ i, (state.child i).phase.isBuffering = false ∧
    (state.child i).phase ≠ .acquiring

/-- The child went through `child_process` to its end. -/
def Succeeded (state : State n) (i : Fin n) : Prop :=
  (state.child i).phase.exit? = some .success

instance (state : State n) (i : Fin n) : Decidable (Succeeded state i) :=
  inferInstanceAs (Decidable (_ = _))

/--
No child's block is interrupted by another's, and at the end the output is the
concatenation, in some order, of the blocks of the children.  A child whose
`open` failed with an error other than `EEXIST` prints nothing.
-/
structure BlocksLaw (arguments : Arguments n) (state : State n) : Prop where
  contiguous : Contiguous state.output
  concatenation : Ended state → ∃ order : List (Fin n),
    order.Perm ((List.finRange n).filter (Succeeded state ·)) ∧
      state.output = order.flatMap fun i => signed i (arguments.block i)

theorem Phase.lines_printed
    (arguments : Arguments n) (i : Fin n) {phase : Phase}
    (quiet : phase.isBuffering = false) (notAcquiring : phase ≠ .acquiring) :
    arguments.lines i (phase.printed arguments.count) =
      if phase.exit? = some .success then arguments.block i else [] := by
  cases phase with
  | absent => rfl
  | acquiring => exact absurd rfl notAcquiring
  | writing printed => cases quiet
  | exiting how => cases quiet
  | exited how => cases how <;> rfl
  | reaped how => cases how <;> rfl

theorem itemsOf_of_ended
    {state : State n} (ledger : Ledger arguments stdout state)
    (ended : Ended state) (i : Fin n) :
    itemsOf i state.output =
      if Succeeded state i then arguments.block i else [] := by
  have bytes := ledger.bytes i
  rcases ended i with ⟨quiet, notAcquiring⟩
  rw [ledger.flushed i quiet, List.append_nil] at bytes
  rw [bytes]
  exact Phase.lines_printed arguments i quiet notAcquiring

theorem blocksLaw_of_contiguous
    {state : State n} (ledger : Ledger arguments stdout state)
    (contiguous : Contiguous state.output) : BlocksLaw arguments state := by
  refine ⟨contiguous, ?_⟩
  intro ended
  have written := itemsOf_of_ended ledger ended
  rcases contiguous.order with ⟨order, nodup, member, output⟩
  have succeeded : ∀ i, i ∈ order ↔ Succeeded state i := by
    intro i
    rw [member i, written i]
    split
    · rename_i success
      exact iff_of_true (block_ne_nil arguments i) success
    · rename_i failure
      exact iff_of_false (by simp) failure
  refine ⟨order, ?_, ?_⟩
  · rw [List.perm_ext_iff_of_nodup nodup ((List.nodup_finRange n).filter _)]
    intro i
    simp [succeeded i]
  · rw [output]
    apply List.flatMap_congr
    intro i inOrder
    rw [written i, if_pos ((succeeded i).mp inOrder)]

/-! ## A terminal -/

theorem whole_started {state : State n} (started : Started state) :
    Whole state := by
  constructor
  case contiguous =>
    rw [started.output]
    exact contiguous_nil
  case holder =>
    intro i _
    left
    rw [started.output]
    rfl

theorem whole_of_reachable
    (settled : ∀ state, (writers arguments stdout).Reachable state →
      ∀ i how, (state.child i).phase = .exiting how →
        (state.child i).buffer = [])
    {state : State n} (reached : (writers arguments stdout).Reachable state) :
    Whole state := by
  refine reached.invariant Whole (fun _ started => whole_started started) ?_
  intro state call next reached whole ran
  exact whole.taken (kept_of_reachable reached) (settled state reached)
    (taken_of_step ran)

/--
At most one child holds the lock; from the parent's first `unlink` on, the lock
file exists exactly while one does, so that `release_lock` finds it; no child
holds the lock when the parent removes the file; and the blocks of the children
come out whole.
-/
structure LockLaw (arguments : Arguments n) (state : State n) : Prop where
  exclusive : ∀ i j, Holds state i → Holds state j → i = j
  file : state.parent ≠ .unlinking →
    (state.lockFile = true ↔ ∃ i, Holds state i)
  release : ∀ i, (Holds state i → state.lockFile = true) ∧
    (state.child i).phase.exit? ≠ some .releaseError
  unlink : state.parent = .unlinking ∨ state.parent = .cleaning →
    ∀ i, ¬ Holds state i
  finished : state.parent = .finished 0 →
    Ended state ∧ ∀ i, (state.child i).phase ≠ .absent
  blocks : BlocksLaw arguments state

theorem Kept.notHolds
    {state : State n} (kept : Kept arguments stdout state)
    (unlinks : state.parent = .unlinking ∨ state.parent = .cleaning)
    (i : Fin n) : ¬ Holds state i := by
  intro holds
  have alive := holds.alive
  rcases unlinks with first | last
  · rw [kept.counted.unlinking first i] at alive
    cases alive
  · rw [kept.counted.cleaned (.inl last) i] at alive
    cases alive

theorem Kept.ended
    {state : State n} (kept : Kept arguments stdout state)
    (finished : state.parent = .finished 0) :
    Ended state ∧ ∀ i, (state.child i).phase ≠ .absent := by
  have reaped : ∀ i, ∃ how, (state.child i).phase = .reaped how := by
    intro i
    have gone := kept.counted.cleaned (.inr finished) i
    unfold State.stage at gone
    cases phase : (state.child i).phase with
    | reaped how => exact ⟨how, rfl⟩
    | _ =>
        rw [phase] at gone
        cases gone
  refine ⟨?_, ?_⟩
  · intro i
    rcases reaped i with ⟨how, phase⟩
    rw [phase]
    exact ⟨rfl, by simp⟩
  · intro i
    rcases reaped i with ⟨how, phase⟩
    simp [phase]

/-- On a terminal every run keeps the law. -/
theorem lockLaw_of_reachable (arguments : Arguments n) {state : State n}
    (reached : (writers arguments .terminal).Reachable state) :
    LockLaw arguments state := by
  have kept := kept_of_reachable reached
  have whole := whole_of_reachable (fun state reached i _ _ =>
    (kept_of_reachable reached).ledger.unbuffered rfl i) reached
  constructor
  case exclusive => exact kept.locked.alone
  case file => exact kept.locked.lock
  case release =>
    intro i
    refine ⟨?_, kept.ledger.released i⟩
    intro holds
    exact (kept.locked.lock (kept.counted.started holds.alive)).mpr
      ⟨i, holds⟩
  case unlink => exact kept.notHolds
  case finished => exact kept.ended
  case blocks => exact blocksLaw_of_contiguous kept.ledger whole.contiguous

/-- Two children print one line each. -/
def twoLines : Arguments 2 where
  message i := [if i = 0 then 97 else 98]
  count := 1
  positive := by decide

/-- The second child is first to take the lock; the first one tries again. -/
def terminalCalls : List (Call 2) :=
  [.unlink, .fork, .fork, .openLock 1, .openLock 0, .printf 1, .unlinkLock 1,
    .openLock 0, .exit 1, .printf 0, .wait 1, .unlinkLock 0, .exit 0,
    .wait 0, .unlink]

/-- The state after these calls; the lock file was left over. -/
def terminalRun : Option (State 2) :=
  terminalCalls.foldlM (step twoLines .terminal)
    ⟨.unlinking, fun _ => ⟨.absent, []⟩, true, []⟩

/-- The law at the end of a run. -/
theorem lockLaw_of_reachable_terminalRun :
    (terminalRun.get (by decide)).parent = .finished 0 ∧
      LockLaw twoLines (terminalRun.get (by decide)) := by
  refine ⟨by decide, lockLaw_of_reachable twoLines ?_⟩
  exact System.Reachable.of_run (fun _ _ _ ran => ran)
    (.start ⟨rfl, fun _ => rfl, rfl⟩) (Option.some_get _).symm

/-! ## A full buffer -/

/-- A child that has written something has written a full buffer and has more of
its block in the buffer, which is not over full when it exits. -/
structure Retained (size : Nat) (state : State n) : Prop where
  kept : ∀ i, (state.child i).phase.isBuffering = true →
    itemsOf i state.output ≠ [] →
      size ≤ (itemsOf i state.output).length ∧ (state.child i).buffer ≠ []
  room : ∀ i how, (state.child i).phase = .exiting how →
    (state.child i).buffer.length ≤ size

/-- One child moves. -/
theorem Retained.move
    {size : Nat} {state next : State n} (retained : Retained size state)
    (i : Fin n) (child : Child) (items : List UInt8)
    (children : next.child = Function.update state.child i child)
    (output : next.output = state.output ++ signed i items)
    (kept : child.phase.isBuffering = true →
      itemsOf i state.output ++ items ≠ [] →
        size ≤ (itemsOf i state.output ++ items).length ∧ child.buffer ≠ [])
    (room : ∀ how, child.phase = .exiting how → child.buffer.length ≤ size) :
    Retained size next := by
  constructor
  case kept =>
    intro j
    rw [children, output, itemsOf_append]
    by_cases equal : j = i
    · subst equal
      simpa using kept
    · rw [Function.update_of_ne equal, itemsOf_signed_of_ne (Ne.symm equal),
        List.append_nil]
      exact retained.kept j
  case room =>
    intro j how
    rw [children]
    by_cases equal : j = i
    · subst equal
      simpa using room how
    · rw [Function.update_of_ne equal]
      exact retained.room j how

theorem Retained.same
    {size : Nat} {state next : State n} (retained : Retained size state)
    (children : next.child = state.child)
    (output : next.output = state.output) : Retained size next := by
  constructor
  case kept => simpa [children, output] using retained.kept
  case room => simpa [children] using retained.room

theorem retained_taken
    {size : Nat} {positive : 0 < size} {state next : State n}
    (ledger : Ledger arguments (.buffered size positive) state)
    (retained : Retained size state)
    (taken : Taken arguments (.buffered size positive) state next) :
    Retained size next := by
  cases taken with
  | unlinkFirst parent => exact retained.same rfl rfl
  | unlinkLast parent => exact retained.same rfl rfl
  | fork i parent =>
      exact retained.move i _ [] rfl (by simp [State.setChild])
        (by simp [Phase.isBuffering]) (by simp)
  | forkFails child parent => exact retained.same rfl rfl
  | wait i how child parent phase =>
      exact retained.move i _ [] rfl (by simp [State.setChild])
        (by simp [Phase.isBuffering]) (by simp)
  | waitFails child parent none => exact retained.same rfl rfl
  | openLock i phase =>
      have fresh := ledger.itemsOf_eq_nil (i := i) (by rw [phase]; rfl)
      unfold openLock
      split
      · exact retained
      · exact retained.move i _ [] rfl (by simp [State.setChild])
          (by simp [fresh.1]) (by simp)
  | openFails i phase =>
      have fresh := ledger.itemsOf_eq_nil (i := i) (by rw [phase]; rfl)
      exact retained.move i _ [] rfl (by simp [State.setChild])
        (by simp [fresh.1]) (by simp [fresh.2])
  | printf i printed phase more room =>
      refine retained.move i _ [] rfl (by simp [printf, State.setChild]) ?_
        (by simp)
      intro _ written
      have kept := retained.kept i (by rw [phase]; rfl) (by simpa using written)
      exact ⟨by simpa using kept.1, by simp [Arguments.line]⟩
  | writeOut i printed phase full =>
      simp only [Stdout.overflows, decide_eq_true_eq] at full
      refine retained.move i _ _ rfl rfl ?_ (by simp [phase])
      intro _ _
      constructor
      · rw [List.length_append, List.length_take]
        omega
      · rw [Ne, List.drop_eq_nil_iff]
        omega
  | unlinkLock i printed phase done room =>
      have kept := retained.kept i (by rw [phase]; rfl)
      simp only [Stdout.overflows, decide_eq_false_iff_not, not_lt] at room
      unfold unlinkLock
      split
      all_goals
        exact retained.move i _ [] rfl (by simp [State.setChild])
          (fun _ => by simpa using kept) (fun _ _ => room)
  | exit i how phase =>
      exact retained.move i _ _ rfl rfl (by simp [Phase.isBuffering]) (by simp)

theorem retained_of_reachable
    {size : Nat} {positive : 0 < size} {state : State n}
    (reached :
      (writers arguments (.buffered size positive)).Reachable state) :
    Retained size state := by
  refine reached.invariant (Retained size) ?_ ?_
  · intro state started
    constructor
    case kept => simp [started.children, Phase.isBuffering]
    case room => simp [started.children]
  · intro state call next reached retained ran
    exact retained_taken (kept_of_reachable reached).ledger retained
      (taken_of_step ran)

theorem length_lines (arguments : Arguments n) (i : Fin n) (printed : Nat) :
    (arguments.lines i printed).length =
      printed * (arguments.line i).length := by
  simp [Arguments.lines]

theorem length_lines_le {i : Fin n} {printed : Nat}
    (bound : printed ≤ arguments.count) :
    (arguments.lines i printed).length ≤ (arguments.block i).length := by
  rw [Arguments.block, length_lines, length_lines]
  exact Nat.mul_le_mul_right _ bound

/-- What a child that has called `exit` has left in its buffer. -/
theorem Ledger.exiting
    {state : State n} (ledger : Ledger arguments stdout state) {i : Fin n}
    {how : Exit} (phase : (state.child i).phase = .exiting how) :
    (state.child i).buffer = [] ∨
      itemsOf i state.output ++ (state.child i).buffer =
        arguments.block i := by
  by_cases success : how = .success
  · right
    rw [ledger.bytes i, phase, success]
    rfl
  · left
    refine (ledger.itemsOf_eq_nil ?_).2
    rw [phase]
    exact if_neg success

/-- A block that fits in the buffer is written at once, by `exit`. -/
theorem contiguous_taken_of_fits
    {size : Nat} {positive : 0 < size} {state next : State n}
    (ledger : Ledger arguments (.buffered size positive) state)
    (retained : Retained size state)
    (fits : ∀ i, (arguments.block i).length ≤ size)
    (contiguous : Contiguous state.output)
    (taken : Taken arguments (.buffered size positive) state next) :
    Contiguous next.output := by
  rcases writes_taken taken with
    ⟨output, _⟩ | ⟨i, items, holds, _, _, full⟩ | ⟨i, how, phase, _, output⟩
  · rw [output]
    exact contiguous
  · -- the buffer holds no more than the block
    rcases full with terminal | full
    · cases terminal
    · simp only [Stdout.overflows, decide_eq_true_eq] at full
      rcases holds with ⟨printed, phase⟩
      have bytes := congrArg List.length (ledger.bytes i)
      have bound := length_lines_le (ledger.bound i printed phase) (i := i)
      have small := fits i
      rw [phase, List.length_append] at bytes
      simp only [Phase.printed] at bytes
      omega
  · rw [output]
    by_cases fresh : itemsOf i state.output = []
    · exact contiguous.append_new fresh _
    · rcases retained.kept i (by rw [phase]; rfl) fresh with ⟨page, more⟩
      rcases ledger.exiting phase with empty | bytes
      · exact absurd empty more
      · have whole := congrArg List.length bytes
        have rest := List.length_pos_iff.mpr more
        have small := fits i
        rw [List.length_append] at whole
        omega

/-- When the blocks cannot be torn apart: there is only one, or each fits in
the buffer. -/
def Unbroken (arguments : Arguments n) (size : Nat) : Prop :=
  n ≤ 1 ∨ ∀ i, (arguments.block i).length ≤ size

theorem contiguous_of_unbroken
    {size : Nat} {positive : 0 < size} (unbroken : Unbroken arguments size)
    {state : State n}
    (reached :
      (writers arguments (.buffered size positive)).Reachable state) :
    Contiguous state.output := by
  rcases unbroken with alone | fits
  · have : Subsingleton (Fin n) := Fin.subsingleton_iff_le_one.mpr alone
    exact contiguous_of_subsingleton state.output
  · refine reached.invariant (fun state => Contiguous state.output) ?_ ?_
    · intro state started
      rw [started.output]
      exact contiguous_nil
    · intro state call next reached contiguous ran
      exact contiguous_taken_of_fits (kept_of_reachable reached).ledger
        (retained_of_reachable reached) fits contiguous (taken_of_step ran)

end OSCourse.LockFile
