import OSCourse.BufferedIo.Transparency
import OSCourse.BufferedIo.WriteSessions

/-!
# Sessions that only read

Whatever the operating system answers to the refills, a `buffered_read` takes
bytes off the front of the stream: what is left in the read buffer, then the
file behind the kernel offset.  When no refill fails it delivers what it took.
When one fails, the bytes taken before in the same call are gone, so nothing
is lost exactly if the failing refill is the first thing the call does.
-/

namespace OSCourse.BufferedIo

open OSCourse.Library.PosixFile
open Flags

/-! ## Taking bytes off the stream -/

/-- A read has taken `taken` off the stream and left the rest alone. -/
structure Consumed (bf : BufferedFile) (fd : OpenFile Byte)
    (taken : List Byte) (bf' : BufferedFile) (fd' : OpenFile Byte) :
    Prop where
  wellFormed : WellFormed bf'
  stream : stream bf fd = taken ++ stream bf' fd'
  writeBufferPos : bf'.writeBufferPos = bf.writeBufferPos
  content : fd'.content = fd.content
  readable : fd'.readable = fd.readable
  outcomes : fd'.outcomes <:+ fd.outcomes

theorem Consumed.refl
    {bf : BufferedFile} (wellFormed : WellFormed bf) (fd : OpenFile Byte) :
    Consumed bf fd [] bf fd :=
  ⟨wellFormed, rfl, rfl, rfl, rfl, List.suffix_refl _⟩

theorem Consumed.trans
    {bf bf₁ bf₂ : BufferedFile} {fd fd₁ fd₂ : OpenFile Byte}
    {first second : List Byte}
    (before : Consumed bf fd first bf₁ fd₁)
    (after : Consumed bf₁ fd₁ second bf₂ fd₂) :
    Consumed bf fd (first ++ second) bf₂ fd₂ := by
  refine ⟨after.wellFormed, ?_,
    after.writeBufferPos.trans before.writeBufferPos,
    after.content.trans before.content, after.readable.trans before.readable,
    after.outcomes.trans before.outcomes⟩
  rw [before.stream, after.stream, List.append_assoc]

/-- Using up an outcome takes nothing. -/
theorem consumed_advance
    {bf : BufferedFile} (wellFormed : WellFormed bf) (fd : OpenFile Byte) :
    Consumed bf fd [] bf fd.advance :=
  ⟨wellFormed, rfl, rfl, rfl, rfl, List.tail_suffix _⟩

/-- One copy out of the read buffer. -/
theorem consumed_copy
    {bf : BufferedFile} (wellFormed : WellFormed bf) (fd : OpenFile Byte)
    {count : Nat} (available : count ≤ bf.leftover.length) :
    Consumed bf fd (bf.leftover.take count) (delivered bf count) fd := by
  refine ⟨wellFormed_delivered wellFormed ?_, ?_, rfl, rfl, rfl,
    List.suffix_refl _⟩
  · rw [← wellFormed.length_leftover]
    exact available
  · rw [stream, stream, leftover_delivered, ← List.append_assoc,
      List.take_append_drop]

/-- The bytes the next refill brings in when it does not fail. -/
def refillBytes (fd : OpenFile Byte) : List Byte :=
  (fd.content.drop fd.offset).take
    (OpenFile.readLimit BUFFER_SIZE fd.outcome)

/-- The file behind the next refill. -/
def afterRefill (fd : OpenFile Byte) : OpenFile Byte :=
  { fd.advance with offset := fd.offset + (refillBytes fd).length }

theorem length_refillBytes_le (fd : OpenFile Byte) :
    (refillBytes fd).length ≤ BUFFER_SIZE := by
  unfold refillBytes OpenFile.readLimit
  rw [List.length_take]
  split <;> omega

theorem refill_cases
    {fd : OpenFile Byte} (readable : fd.readable = true)
    (bf : BufferedFile) :
    (fd.outcome = .error ∧ refill bf fd = (none, bf, fd.advance)) ∨
      (fd.outcome ≠ .error ∧ refillBytes fd = [] ∧
        refill bf fd = (some [], bf, afterRefill fd)) ∨
      (fd.outcome ≠ .error ∧ refillBytes fd ≠ [] ∧
        refill bf fd =
          (some (refillBytes fd), refilled bf (refillBytes fd),
            afterRefill fd)) := by
  by_cases failed : fd.outcome = .error
  · exact .inl ⟨failed, by simp [refill, OpenFile.read, failed]⟩
  · have answered : fd.read BUFFER_SIZE =
        (some (refillBytes fd), afterRefill fd) := by
      simp [OpenFile.read, readable, failed, refillBytes, afterRefill]
    refine .inr ?_
    by_cases ended : refillBytes fd = []
    · exact .inl ⟨failed, ended, by rw [refill, answered, ended]⟩
    · refine .inr ⟨failed, ended, ?_⟩
      obtain ⟨byte, rest, split⟩ := List.exists_cons_of_ne_nil ended
      rw [refill, answered, split]
      rfl

/-- A refill that brings nothing in is at the end of the file. -/
theorem drop_offset_of_ended
    {fd : OpenFile Byte} (success : fd.outcome ≠ .error)
    (ended : refillBytes fd = []) :
    fd.content.drop fd.offset = [] := by
  rcases List.take_eq_nil_iff.mp ended with limit | nothing
  · exfalso
    have size := bufferSize_pos
    unfold OpenFile.readLimit at limit
    split at limit
    · omega
    · omega
    · rename_i failed
      exact success failed
  · exact nothing

theorem consumed_ended
    {bf : BufferedFile} (wellFormed : WellFormed bf) {fd : OpenFile Byte}
    (ended : refillBytes fd = []) :
    Consumed bf fd [] bf (afterRefill fd) := by
  refine ⟨wellFormed, ?_, rfl, rfl, rfl, List.tail_suffix _⟩
  simp [stream, afterRefill, ended, OpenFile.advance]

/-- A refill of an exhausted buffer moves bytes within the stream. -/
theorem consumed_refill
    {bf : BufferedFile} (wellFormed : WellFormed bf) {fd : OpenFile Byte}
    (exhausted : bf.leftover = []) :
    Consumed bf fd [] (refilled bf (refillBytes fd)) (afterRefill fd) := by
  have fits := length_refillBytes_le fd
  refine ⟨wellFormed_refilled wellFormed fits, ?_, rfl, rfl, rfl,
    List.tail_suffix _⟩
  have front : refillBytes fd =
      (fd.content.drop fd.offset).take (refillBytes fd).length := by
    conv_lhs => rw [refillBytes]
    rw [List.take_eq_take_iff, refillBytes, List.length_take]
    omega
  rw [stream, stream, exhausted, leftover_refilled wellFormed fits,
    List.nil_append, List.nil_append]
  change _ = refillBytes fd ++
    fd.content.drop (fd.offset + (refillBytes fd).length)
  rw [← List.drop_drop]
  conv_rhs =>
    lhs
    rw [front]
  rw [List.take_append_drop]

/-! ## Which calls come to a failing refill -/

/--
Whether a call that wants `need` bytes, with `available` bytes in the read
buffer and `remaining` bytes in the file, comes to a refill that fails.
-/
def comesToError : List Outcome → Nat → Nat → Nat → Bool
  | [], _, _, _ => false
  | outcome :: rest, need, available, remaining =>
      if need ≤ available then false
      else if outcome = .error then true
      else
        let refill := min (OpenFile.readLimit BUFFER_SIZE outcome) remaining
        if refill = 0 then false
        else comesToError rest (need - available) refill (remaining - refill)

theorem comesToError_of_le
    {outcomes : List Outcome} {need available remaining : Nat}
    (enough : need ≤ available) :
    comesToError outcomes need available remaining = false := by
  cases outcomes <;> simp [comesToError, enough]

/-- Copying bytes out of the buffer does not change what is coming. -/
theorem comesToError_copy
    (outcomes : List Outcome) {need available count : Nat} (remaining : Nat)
    (wanted : count ≤ need) (there : count ≤ available) :
    comesToError outcomes (need - count) (available - count) remaining =
      comesToError outcomes need available remaining := by
  have same : need - count - (available - count) = need - available := by
    omega
  have order : need - count ≤ available - count ↔ need ≤ available := by
    omega
  cases outcomes with
  | nil => simp [comesToError]
  | cons outcome rest => simp [comesToError, same, order]

/-- `comesToError` for a call on a state. -/
def Fails (bf : BufferedFile) (fd : OpenFile Byte) (need : Nat) : Prop :=
  comesToError fd.outcomes need bf.leftover.length
    (fd.content.length - fd.offset) = true

theorem fails_copy
    {bf : BufferedFile} {fd : OpenFile Byte} {need count : Nat}
    (wanted : count ≤ need) (there : count ≤ bf.leftover.length) :
    Fails (delivered bf count) fd (need - count) ↔ Fails bf fd need := by
  unfold Fails
  rw [leftover_delivered, List.length_drop,
    comesToError_copy fd.outcomes _ wanted there]

theorem fails_of_error
    {bf : BufferedFile} {fd : OpenFile Byte} {need : Nat}
    (more : bf.leftover.length < need) (failed : fd.outcome = .error) :
    Fails bf fd need := by
  obtain ⟨rest, split⟩ : ∃ rest, fd.outcomes = .error :: rest := by
    unfold OpenFile.outcome at failed
    cases outcomes : fd.outcomes with
    | nil => simp [outcomes] at failed
    | cons outcome rest =>
        rw [outcomes, List.headD_cons] at failed
        exact ⟨rest, by rw [failed]⟩
  unfold Fails
  rw [split, comesToError, if_neg (by omega), if_pos rfl]

/-- A refill passes the question on to the refilled buffer. -/
theorem fails_refill
    {bf : BufferedFile} (wellFormed : WellFormed bf) {fd : OpenFile Byte}
    {need : Nat} (more : 0 < need) (exhausted : bf.leftover = [])
    (success : fd.outcome ≠ .error) :
    Fails bf fd need ↔
      refillBytes fd ≠ [] ∧
        Fails (refilled bf (refillBytes fd)) (afterRefill fd) need := by
  have fits := length_refillBytes_le fd
  have length : (refillBytes fd).length =
      min (OpenFile.readLimit BUFFER_SIZE fd.outcome)
        (fd.content.length - fd.offset) := by
    rw [refillBytes, List.length_take, List.length_drop]
  have beyond : (afterRefill fd).content.length - (afterRefill fd).offset =
      fd.content.length - fd.offset - (refillBytes fd).length := by
    change fd.content.length - (fd.offset + (refillBytes fd).length) = _
    omega
  unfold Fails
  rw [leftover_refilled wellFormed fits, exhausted, beyond]
  change _ ↔ _ ∧ comesToError fd.outcomes.tail _ _ _ = true
  cases outcomes : fd.outcomes with
  | nil => simp [comesToError]
  | cons outcome rest =>
      have head : fd.outcome = outcome := by
        simp [OpenFile.outcome, outcomes]
      rw [head] at success length
      have waiting : ¬ need ≤ 0 := by omega
      simp only [comesToError, List.length_nil, waiting, if_false, success,
        Nat.sub_zero, List.tail_cons, ← length, List.length_eq_zero_iff]
      by_cases ended : refillBytes fd = [] <;> simp [ended]

/-! ## The loop -/

/-- How the loop of `buffered_read` ends. -/
structure ReadOutcome (bf : BufferedFile) (fd : OpenFile Byte)
    (outBuf : List Byte) (count : Nat)
    (answer : Option (List Byte)) (taken : List Byte)
    (bf' : BufferedFile) (fd' : OpenFile Byte) : Prop where
  consumed : Consumed bf fd taken bf' fd'
  failed : answer = none ↔ Fails bf fd (count - outBuf.length)
  delivered : ∀ bytes, answer = some bytes →
    bytes = outBuf ++ taken ∧ bytes.length ≤ count ∧
      (bytes.length = count ∨ stream bf' fd' = [])
  untouched : answer = none →
    (taken = [] ↔ bf.leftover = [] ∧ fd.outcome = .error)

/-- One copy out of the read buffer in front of the rest of the loop. -/
theorem ReadOutcome.after_copy
    {bf ready bf' : BufferedFile} {fd fd₁ fd' : OpenFile Byte}
    {outBuf taken : List Byte} {count toCopy : Nat}
    {answer : Option (List Byte)}
    (before : Consumed bf fd [] ready fd₁)
    (same : Fails bf fd (count - outBuf.length) ↔
      Fails ready fd₁ (count - outBuf.length))
    (notFirst : ¬ (bf.leftover = [] ∧ fd.outcome = .error))
    (positive : 0 < toCopy)
    (wanted : toCopy ≤ count - outBuf.length)
    (there : toCopy ≤ ready.leftover.length)
    (rest : ReadOutcome (BufferedIo.delivered ready toCopy) fd₁
      (outBuf ++ ready.leftover.take toCopy) count answer taken bf' fd') :
    ReadOutcome bf fd outBuf count answer
      (ready.leftover.take toCopy ++ taken) bf' fd' := by
  have length : (ready.leftover.take toCopy).length = toCopy := by
    rw [List.length_take]
    omega
  refine ⟨?_, ?_, ?_, ?_⟩
  · exact before.trans
      ((consumed_copy before.wellFormed fd₁ there).trans rest.consumed)
  · rw [rest.failed, same, ← fails_copy wanted there, List.length_append,
      length, Nat.sub_add_eq]
  · intro bytes answered
    obtain ⟨bytesEq, short, full⟩ := rest.delivered bytes answered
    rw [List.append_assoc] at bytesEq
    exact ⟨bytesEq, short, full⟩
  · intro _
    constructor
    · intro nothing
      have empty := congrArg List.length nothing
      rw [List.length_append, length, List.length_nil] at empty
      omega
    · intro first
      exact absurd first notFirst

/-- A refill that fails ends the loop. -/
theorem ReadOutcome.of_error
    {bf : BufferedFile} {fd : OpenFile Byte} {outBuf : List Byte}
    {count : Nat} (wellFormed : WellFormed bf) (empty : bf.leftover = [])
    (more : outBuf.length < count) (failed : fd.outcome = .error) :
    ReadOutcome bf fd outBuf count none [] bf fd.advance := by
  constructor
  case consumed => exact consumed_advance wellFormed fd
  case failed =>
    simp only [true_iff]
    exact fails_of_error (by rw [empty, List.length_nil]; omega) failed
  case delivered => simp
  case untouched => exact fun _ => ⟨fun _ => ⟨empty, failed⟩, fun _ => rfl⟩

/-- A refill at the end of the file ends the loop. -/
theorem ReadOutcome.of_end
    {bf : BufferedFile} {fd : OpenFile Byte} {outBuf : List Byte}
    {count : Nat} (wellFormed : WellFormed bf) (empty : bf.leftover = [])
    (more : outBuf.length < count) (success : fd.outcome ≠ .error)
    (ended : refillBytes fd = []) :
    ReadOutcome bf fd outBuf count (some outBuf) [] bf (afterRefill fd) := by
  constructor
  case consumed => exact consumed_ended wellFormed ended
  case failed =>
    rw [fails_refill wellFormed (by omega) empty success]
    simp [ended]
  case delivered =>
    rintro bytes ⟨⟩
    refine ⟨by simp, more.le, .inr ?_⟩
    have rest := (consumed_ended wellFormed ended).stream
    rw [stream, empty, drop_offset_of_ended success ended] at rest
    simpa using rest.symm
  case untouched => simp

/-- The loop ends when everything has been copied. -/
theorem ReadOutcome.of_full
    {bf : BufferedFile} {fd : OpenFile Byte} {outBuf : List Byte}
    {count : Nat} (wellFormed : WellFormed bf)
    (full : outBuf.length = count) :
    ReadOutcome bf fd outBuf count (some outBuf) [] bf fd := by
  constructor
  case consumed => exact .refl wellFormed fd
  case failed =>
    have done : count - outBuf.length ≤ bf.leftover.length := by omega
    simp [Fails, comesToError_of_le done]
  case delivered =>
    rintro bytes ⟨⟩
    exact ⟨by simp, full.le, .inl full⟩
  case untouched => simp

/-- The loop always ends, in one of the ways of `ReadOutcome`. -/
theorem bufferedReadLoop_outcome
    (count fuel : Nat) (outBuf : List Byte)
    {bf : BufferedFile} {fd : OpenFile Byte}
    (wellFormed : WellFormed bf) (readable : fd.readable = true)
    (bound : outBuf.length ≤ count)
    (enough : count - outBuf.length < fuel) :
    ∃ answer taken bf' fd',
      bufferedReadLoop count fuel outBuf bf fd = some (answer, bf', fd') ∧
        ReadOutcome bf fd outBuf count answer taken bf' fd' := by
  induction fuel generalizing outBuf bf fd with
  | zero => omega
  | succ fuel ih =>
      rw [bufferedReadLoop]
      by_cases more : outBuf.length < count
      · rw [if_pos more]
        dsimp only
        have copied :
            ∀ {ready : BufferedFile} {fd₁ : OpenFile Byte} {toCopy : Nat},
              Consumed bf fd [] ready fd₁ →
              toCopy = min (count - outBuf.length) ready.leftover.length →
              0 < toCopy →
              ∃ answer taken bf' fd',
                bufferedReadLoop count fuel
                    (outBuf ++
                      (ready.readBuffer.drop ready.readBufferPos).take toCopy)
                    (delivered ready toCopy) fd₁ =
                    some (answer, bf', fd') ∧
                  ReadOutcome (delivered ready toCopy) fd₁
                    (outBuf ++ ready.leftover.take toCopy) count answer taken
                    bf' fd' := by
          intro ready fd₁ toCopy before amount positive
          have there : toCopy ≤ ready.leftover.length := by omega
          have available : toCopy ≤
              ready.readBufferSize - ready.readBufferPos := by
            rw [← before.wellFormed.length_leftover]
            exact there
          have length : (outBuf ++ ready.leftover.take toCopy).length =
              outBuf.length + toCopy := by
            rw [List.length_append, List.length_take]
            omega
          rw [take_leftover ready available]
          exact ih _ (wellFormed_delivered before.wellFormed available)
            (before.readable.trans readable) (by omega) (by omega)
        by_cases exhausted : bf.readBufferSize - bf.readBufferPos = 0
        · rw [if_pos exhausted]
          have empty : bf.leftover = [] := by
            apply List.eq_nil_of_length_eq_zero
            rw [wellFormed.length_leftover, exhausted]
          rcases refill_cases readable bf with
            ⟨failed, result⟩ | ⟨success, ended, result⟩ |
              ⟨success, brought, result⟩
          · rw [result]
            exact ⟨none, [], bf, fd.advance, rfl,
              .of_error wellFormed empty more failed⟩
          · rw [result]
            exact ⟨some outBuf, [], bf, afterRefill fd, rfl,
              .of_end wellFormed empty more success ended⟩
          · rw [result]
            have before : Consumed bf fd [] (refilled bf (refillBytes fd))
                (afterRefill fd) := consumed_refill wellFormed empty
            have leftover :=
              leftover_refilled wellFormed (length_refillBytes_le fd)
            have same : Fails bf fd (count - outBuf.length) ↔
                refillBytes fd ≠ [] ∧
                  Fails (refilled bf (refillBytes fd)) (afterRefill fd)
                    (count - outBuf.length) :=
              fails_refill wellFormed (by omega) empty success
            have some : 0 < (refillBytes fd).length :=
              List.length_pos_iff.mpr brought
            have length := before.wellFormed.length_leftover
            obtain ⟨answer, taken, bf', fd', result, outcome⟩ :=
              copied before rfl (by rw [leftover]; omega)
            refine ⟨answer, _, bf', fd', ?_, outcome.after_copy before
              (by simp [same, brought]) (fun first => success first.2)
              (by rw [leftover]; omega) (by omega) (by omega)⟩
            generalize refillBytes fd = bytes at *
            cases bytes with
            | nil => exact absurd rfl brought
            | cons byte bytes =>
                dsimp only
                rw [← length]
                exact result
        · rw [if_neg exhausted]
          have length := wellFormed.length_leftover
          obtain ⟨answer, taken, bf', fd', result, outcome⟩ :=
            copied (.refl wellFormed fd) rfl (by omega)
          refine ⟨answer, _, bf', fd', ?_, outcome.after_copy
            (.refl wellFormed fd) Iff.rfl ?_ (by omega) (by omega) (by omega)⟩
          · rw [← length]
            exact result
          · rintro ⟨empty, -⟩
            rw [empty, List.length_nil] at length
            omega
      · rw [if_neg more]
        exact ⟨some outBuf, [], bf, fd, rfl, .of_full wellFormed (by omega)⟩

/-- `buffered_read` when nothing is pending. -/
theorem bufferedRead_outcome
    {bf : BufferedFile} {fd : OpenFile Byte}
    (wellFormed : WellFormed bf) (readable : fd.readable = true)
    (noPending : bf.writeBufferPos = 0) (count : Nat) :
    ∃ answer taken bf' fd',
      bufferedRead bf fd count = some (answer, bf', fd') ∧
        ReadOutcome bf fd [] count answer taken bf' fd' := by
  rw [bufferedRead, if_neg (by omega)]
  exact bufferedReadLoop_outcome count (count + 1) [] wellFormed readable
    (Nat.zero_le _) (by simp)

/-! ## The copies out of the read buffer -/

/-- The copies made by the loop of `buffered_read`. -/
def readLoopCopies (count : Nat) :
    Nat → Nat → BufferedFile → OpenFile Byte → List Copy
  | 0, _, _, _ => []
  | fuel + 1, totalRead, bf, fd =>
      if totalRead < count then
        let copyOut (bf : BufferedFile) (fd : OpenFile Byte) :=
          let available := bf.readBufferSize - bf.readBufferPos
          let toCopy := min (count - totalRead) available
          ⟨bf.readBufferPos, toCopy⟩ ::
            readLoopCopies count fuel (totalRead + toCopy)
              { bf with readBufferPos := bf.readBufferPos + toCopy } fd
        if bf.readBufferSize - bf.readBufferPos = 0 then
          match refill bf fd with
          | (none, _, _) => []
          | (some [], _, _) => []
          | (some _, bf, fd) => copyOut bf fd
        else
          copyOut bf fd
      else
        []

/-- The copies made by `buffered_read` when nothing is pending. -/
def readCopies (bf : BufferedFile) (fd : OpenFile Byte) (count : Nat) :
    List Copy :=
  readLoopCopies count (count + 1) 0 bf fd

theorem readLoopCopies_inside
    (count fuel totalRead : Nat)
    {bf : BufferedFile} {fd : OpenFile Byte} (wellFormed : WellFormed bf)
    (readable : fd.readable = true)
    {copy : Copy}
    (made : copy ∈ readLoopCopies count fuel totalRead bf fd) :
    copy.Inside := by
  induction fuel generalizing totalRead bf fd with
  | zero => simp [readLoopCopies] at made
  | succ fuel ih =>
      rw [readLoopCopies] at made
      by_cases more : totalRead < count
      · rw [if_pos more] at made
        dsimp only at made
        -- a copy stays inside the filled part of a well-formed buffer
        have copied :
            ∀ {ready : BufferedFile} {fd₁ : OpenFile Byte},
              WellFormed ready → fd₁.readable = true →
              copy ∈ (⟨ready.readBufferPos, min (count - totalRead)
                  (ready.readBufferSize - ready.readBufferPos)⟩ : Copy) ::
                readLoopCopies count fuel
                  (totalRead + min (count - totalRead)
                    (ready.readBufferSize - ready.readBufferPos))
                  (delivered ready (min (count - totalRead)
                    (ready.readBufferSize - ready.readBufferPos))) fd₁ →
              copy.Inside := by
          intro ready fd₁ readyWell readable₁ member
          have pos := readyWell.readPos
          have size := readyWell.readSize
          rcases List.mem_cons.mp member with rfl | later
          · change ready.readBufferPos + min _ _ ≤ BUFFER_SIZE
            omega
          · exact ih _ (wellFormed_delivered readyWell (Nat.min_le_right _ _))
              readable₁ later
        by_cases exhausted : bf.readBufferSize - bf.readBufferPos = 0
        · rw [if_pos exhausted] at made
          rcases refill_cases readable bf with
            ⟨-, result⟩ | ⟨-, -, result⟩ | ⟨-, brought, result⟩
          · simp [result] at made
          · simp [result] at made
          · have refilledWell :=
              wellFormed_refilled wellFormed (length_refillBytes_le fd)
            rw [result] at made
            generalize refillBytes fd = bytes at *
            cases bytes with
            | nil => exact absurd rfl brought
            | cons byte bytes =>
                exact copied refilledWell
                  (show (afterRefill fd).readable = true from readable) made
        · rw [if_neg exhausted] at made
          exact copied wellFormed readable made
      · simp [more] at made

/--
The copies are those of the loop: a loop that does not fail delivers as many
bytes as they are long.
-/
theorem readLoopCopies_delivered
    {count fuel : Nat} {outBuf delivered : List Byte}
    {bf bf' : BufferedFile} {fd fd' : OpenFile Byte}
    (wellFormed : WellFormed bf) (readable : fd.readable = true)
    (ran : bufferedReadLoop count fuel outBuf bf fd =
      some (some delivered, bf', fd')) :
    delivered.length = outBuf.length +
      ((readLoopCopies count fuel outBuf.length bf fd).map
        Copy.length).sum := by
  induction fuel generalizing outBuf bf fd with
  | zero => simp [bufferedReadLoop] at ran
  | succ fuel ih =>
      rw [bufferedReadLoop] at ran
      rw [readLoopCopies]
      by_cases more : outBuf.length < count
      · rw [if_pos more] at ran ⊢
        dsimp only at ran ⊢
        -- a copy brings as many bytes as it is long
        have copied :
            ∀ {ready : BufferedFile} {fd₁ : OpenFile Byte} {toCopy : Nat},
              WellFormed ready → fd₁.readable = true →
              toCopy ≤ ready.readBufferSize - ready.readBufferPos →
              bufferedReadLoop count fuel
                (outBuf ++
                  (ready.readBuffer.drop ready.readBufferPos).take toCopy)
                (BufferedIo.delivered ready toCopy) fd₁ =
                  some (some delivered, bf', fd') →
              delivered.length = outBuf.length +
                (((⟨ready.readBufferPos, toCopy⟩ : Copy) ::
                  readLoopCopies count fuel (outBuf.length + toCopy)
                    (BufferedIo.delivered ready toCopy) fd₁).map
                      Copy.length).sum := by
          intro ready fd₁ toCopy readyWell readable₁ available later
          have size := readyWell.readSize
          have length : ((ready.readBuffer.drop ready.readBufferPos).take
              toCopy).length = toCopy := by
            rw [List.length_take, List.length_drop, readyWell.readLength]
            omega
          have total := ih (wellFormed_delivered readyWell available)
            readable₁ later
          rw [List.length_append, length] at total
          rw [total, List.map_cons, List.sum_cons, Nat.add_assoc]
        by_cases exhausted : bf.readBufferSize - bf.readBufferPos = 0
        · rw [if_pos exhausted] at ran ⊢
          rcases refill_cases readable bf with
            ⟨-, result⟩ | ⟨-, -, result⟩ | ⟨-, brought, result⟩
          · simp [result] at ran
          · rw [result] at ran ⊢
            simp only [Option.some.injEq, Prod.mk.injEq] at ran
            simp [ran.1]
          · have refilledWell :=
              wellFormed_refilled wellFormed (length_refillBytes_le fd)
            rw [result] at ran ⊢
            generalize refillBytes fd = bytes at *
            cases bytes with
            | nil => exact absurd rfl brought
            | cons byte bytes =>
                exact copied refilledWell
                  (show (afterRefill fd).readable = true from readable)
                  (Nat.min_le_right _ _) ran
        · rw [if_neg exhausted] at ran ⊢
          exact copied wellFormed readable (Nat.min_le_right _ _) ran
      · rw [if_neg more] at ran ⊢
        simp only [Option.some.injEq, Prod.mk.injEq] at ran
        simp [ran.1]

/-! ## Reads when no refill fails -/

theorem comesToError_of_noErrors
    {outcomes : List Outcome}
    (noErrors : ∀ outcome ∈ outcomes, outcome ≠ .error)
    (need available remaining : Nat) :
    comesToError outcomes need available remaining = false := by
  induction outcomes generalizing need available remaining with
  | nil => rfl
  | cons outcome rest ih =>
      have here := noErrors outcome List.mem_cons_self
      have later := ih fun other member =>
        noErrors other (List.mem_cons_of_mem outcome member)
      simp [comesToError, here, later]

/-- What reads of the given sizes deliver from a stream. -/
def deliveries : List Byte → List Nat → List Reply
  | _, [] => []
  | stream, count :: rest =>
      .bytes (some (stream.take count)) :: deliveries (stream.drop count) rest

/-- What the successful reads among the replies deliver. -/
def deliveredBytes (replies : List Reply) : List Byte :=
  replies.flatMap fun reply =>
    match reply with
    | .bytes (some bytes) => bytes
    | _ => []

theorem deliveredBytes_deliveries
    (stream : List Byte) (counts : List Nat) :
    deliveredBytes (deliveries stream counts) = stream.take counts.sum := by
  induction counts generalizing stream with
  | nil => simp [deliveries, deliveredBytes]
  | cons count rest ih =>
      rw [List.sum_cons, List.take_add, ← ih]
      rfl

/-- A read that does not come to an error delivers the front of the stream. -/
theorem ReadOutcome.of_not_fails
    {bf bf' : BufferedFile} {fd fd' : OpenFile Byte} {count : Nat}
    {answer : Option (List Byte)} {taken : List Byte}
    (outcome : ReadOutcome bf fd [] count answer taken bf' fd')
    (fine : ¬ Fails bf fd count) :
    answer = some ((stream bf fd).take count) ∧
      stream bf' fd' = (stream bf fd).drop count ∧
      taken = (stream bf fd).take count := by
  have answered : answer ≠ none := by
    intro failed
    exact fine (by simpa using outcome.failed.mp failed)
  obtain ⟨bytes, rfl⟩ := Option.ne_none_iff_exists'.mp answered
  obtain ⟨bytesEq, short, full⟩ := outcome.delivered bytes rfl
  rw [List.nil_append] at bytesEq
  subst bytesEq
  have streamEq := outcome.consumed.stream
  have front : (stream bf fd).take count = bytes := by
    rw [streamEq]
    rcases full with exactly | ended
    · rw [← exactly, List.take_left]
    · rw [ended, List.append_nil, List.take_of_length_le short]
  refine ⟨by rw [front], ?_, front.symm⟩
  rw [streamEq]
  rcases full with exactly | ended
  · rw [← exactly, List.drop_left]
  · rw [ended, List.append_nil, List.drop_eq_nil_of_le short]

/-- Reads none of which fails deliver the stream piece by piece. -/
theorem bufferedCalls_reads
    (counts : List Nat) {bf : BufferedFile} {fd : OpenFile Byte}
    (wellFormed : WellFormed bf) (readable : fd.readable = true)
    (noPending : bf.writeBufferPos = 0)
    (noErrors : ∀ outcome ∈ fd.outcomes, outcome ≠ .error) :
    ∃ bf' fd',
      bufferedCalls (counts.map .read) bf fd =
          some (deliveries (stream bf fd) counts, bf', fd') ∧
        WellFormed bf' ∧ fd'.readable = true := by
  induction counts generalizing bf fd with
  | nil => exact ⟨bf, fd, rfl, wellFormed, readable⟩
  | cons count rest ih =>
      obtain ⟨answer, taken, bf₁, fd₁, result, outcome⟩ :=
        bufferedRead_outcome wellFormed readable noPending count
      have fine : ¬ Fails bf fd count := by
        simp [Fails, comesToError_of_noErrors noErrors]
      obtain ⟨rfl, streamEq, -⟩ := outcome.of_not_fails fine
      have consumed := outcome.consumed
      obtain ⟨bf', fd', results, final⟩ :=
        ih consumed.wellFormed (consumed.readable.trans readable)
          (consumed.writeBufferPos.trans noPending)
          (fun other member => noErrors other (consumed.outcomes.subset member))
      refine ⟨bf', fd', ?_, final⟩
      have step : bufferedCall bf fd (.read count) =
          some (.bytes (some ((stream bf fd).take count)), bf₁, fd₁) := by
        simp [bufferedCall, result]
      rw [List.map_cons, bufferedCalls_cons step, results, streamEq]
      rfl

/-- Nothing is pending or read ahead behind `buffered_open`. -/
theorem start_opened
    {heap : Heap} {file : Option (List Byte)} {flags : Flags}
    {outcomes : List Outcome} {bf : BufferedFile} {fd : OpenFile Byte}
    (opened : bufferedOpen heap file flags outcomes = some (bf, fd)) :
    WellFormed bf ∧ bf.writeBufferPos = 0 ∧ stream bf fd = fd.content := by
  obtain ⟨wellFormed, noPending, nothing, -, openedFile⟩ :=
    wellFormed_opened opened
  refine ⟨wellFormed, ?_, ?_⟩
  · rw [← wellFormed.length_pending, noPending, List.length_nil]
  · rw [stream, nothing, (openFile_cases openedFile).1, List.drop_zero,
      List.nil_append]

/--
Read transparency: however short the refills are, every read delivers exactly
the next bytes of the file, and every copy stays inside the read buffer.
-/
theorem read_session_transparent
    (heap : Heap)
    (file : Option (List Byte))
    (flags : Flags)
    (outcomes : List Outcome)
    (counts : List Nat)
    (bf : BufferedFile)
    (fd : OpenFile Byte)
    (opened : bufferedOpen heap file flags outcomes = some (bf, fd))
    (readable : fd.readable = true)
    (noErrors : ∀ outcome ∈ outcomes, outcome ≠ .error) :
    ∃ bf' fd',
      bufferedCalls (counts.map .read) bf fd =
          some (deliveries fd.content counts, bf', fd') ∧
        deliveredBytes (deliveries fd.content counts) =
          fd.content.take counts.sum ∧
        bf'.readBuffer.length = BUFFER_SIZE ∧
        ∀ count, ∀ copy ∈ readCopies bf' fd' count, copy.Inside := by
  obtain ⟨wellFormed, noPending, streamEq⟩ := start_opened opened
  obtain ⟨-, -, -, -, openedFile⟩ := wellFormed_opened opened
  have later : ∀ outcome ∈ fd.outcomes, outcome ≠ .error := by
    intro outcome member
    rw [(openFile_cases openedFile).2.2.2.2.1] at member
    exact noErrors outcome (List.mem_of_mem_tail member)
  obtain ⟨bf', fd', results, wellFormed', readable'⟩ :=
    bufferedCalls_reads counts wellFormed readable noPending later
  rw [streamEq] at results
  refine ⟨bf', fd', results, deliveredBytes_deliveries _ _,
    wellFormed'.readLength, ?_⟩
  intro count copy made
  exact readLoopCopies_inside count _ _ wellFormed' readable' made

/-- A file of two bytes, opened for reading; the runs below start here. -/
def twoBytes (outcomes : List Outcome) :
    Option (BufferedFile × OpenFile Byte) :=
  bufferedOpen (.ample zeroMemory zeroMemory) (some [1, 2]) O_RDONLY outcomes

/-- Refills of one byte each, read in calls of one and five bytes. -/
theorem read_session_transparent_short :
    ∃ bf fd, twoBytes [.full, .short 1, .short 0] = some (bf, fd) ∧
      ∃ bf' fd', bufferedCalls ([1, 5].map .read) bf fd =
        some ([.bytes (some [1]), .bytes (some [2])], bf', fd') := by
  refine ⟨_, _, rfl, ?_⟩
  obtain ⟨bf', fd', results, -⟩ :=
    read_session_transparent (.ample zeroMemory zeroMemory) (some [1, 2])
      O_RDONLY [.full, .short 1, .short 0] [1, 5] _ _ rfl (by decide)
      (by decide)
  exact ⟨bf', fd', results⟩

/-! ## Reads some of which fail -/

/--
Every call of the run that comes to a failing refill starts with it: nothing
is left in the read buffer and the first refill fails.
-/
def Clean : List Nat → BufferedFile → OpenFile Byte → Prop
  | [], _, _ => True
  | count :: rest, bf, fd =>
      (Fails bf fd count → bf.leftover = [] ∧ fd.outcome = .error) ∧
        ∀ answer bf' fd', bufferedRead bf fd count = some (answer, bf', fd') →
          Clean rest bf' fd'

/--
After every call of the run, what the successful calls have delivered and what
the next calls will deliver make up `content`.
-/
def Continues (content : List Byte) (counts : List Nat)
    (bf : BufferedFile) (fd : OpenFile Byte) : Prop :=
  ∀ front, front <+: counts →
    ∃ replies bf' fd',
      bufferedCalls (front.map .read) bf fd = some (replies, bf', fd') ∧
        content = deliveredBytes replies ++ stream bf' fd'

/-- A call keeps the stream exactly if it is clean. -/
theorem ReadOutcome.keeps_iff
    {bf bf' : BufferedFile} {fd fd' : OpenFile Byte} {count : Nat}
    {answer : Option (List Byte)} {taken : List Byte}
    (outcome : ReadOutcome bf fd [] count answer taken bf' fd') :
    stream bf fd = deliveredBytes [.bytes answer] ++ stream bf' fd' ↔
      (Fails bf fd count → bf.leftover = [] ∧ fd.outcome = .error) := by
  have streamEq := outcome.consumed.stream
  have failed : answer = none ↔ Fails bf fd count := by
    simpa using outcome.failed
  cases answer with
  | none =>
      have fails := failed.mp rfl
      have untouched := outcome.untouched rfl
      simp only [deliveredBytes, List.flatMap_cons, List.flatMap_nil,
        List.append_nil, List.nil_append, fails, true_imp_iff]
      rw [streamEq, ← untouched]
      simp
  | some bytes =>
      obtain ⟨bytesEq, -, -⟩ := outcome.delivered bytes rfl
      have fine : ¬ Fails bf fd count := by simp [← failed]
      rw [List.nil_append] at bytesEq
      simp [deliveredBytes, fine, bytesEq, streamEq]

theorem deliveredBytes_cons (reply : Reply) (replies : List Reply) :
    deliveredBytes (reply :: replies) =
      deliveredBytes [reply] ++ deliveredBytes replies := by
  simp [deliveredBytes]

/-- The run of one more call in front. -/
theorem continues_cons
    {count : Nat} {rest : List Nat} {bf bf₁ : BufferedFile}
    {fd fd₁ : OpenFile Byte} {answer : Option (List Byte)}
    (result : bufferedRead bf fd count = some (answer, bf₁, fd₁)) :
    Continues (stream bf fd) (count :: rest) bf fd ↔
      stream bf fd = deliveredBytes [.bytes answer] ++ stream bf₁ fd₁ ∧
        Continues (stream bf₁ fd₁) rest bf₁ fd₁ := by
  have step : bufferedCall bf fd (.read count) =
      some (.bytes answer, bf₁, fd₁) := by
    simp [bufferedCall, result]
  constructor
  · intro continues
    have one : stream bf fd =
        deliveredBytes [.bytes answer] ++ stream bf₁ fd₁ := by
      obtain ⟨replies, bf', fd', calls, split⟩ :=
        continues [count] (by simp)
      rw [List.map_cons, bufferedCalls_cons step] at calls
      simp only [List.map_nil, bufferedCalls, Option.map_some,
        Option.some.injEq, Prod.mk.injEq] at calls
      obtain ⟨rfl, rfl, rfl⟩ := calls
      exact split
    refine ⟨one, fun front ahead => ?_⟩
    obtain ⟨replies, bf', fd', calls, split⟩ :=
      continues (count :: front) (List.cons_prefix_cons.mpr ⟨rfl, ahead⟩)
    rw [List.map_cons, bufferedCalls_cons step] at calls
    obtain ⟨⟨later, state⟩, ran, packed⟩ := Option.map_eq_some_iff.mp calls
    simp only [Prod.mk.injEq] at packed
    obtain ⟨rfl, rfl⟩ := packed
    refine ⟨later, bf', fd', ran, ?_⟩
    rw [one, deliveredBytes_cons (.bytes answer) later, List.append_assoc]
      at split
    exact List.append_cancel_left split
  · rintro ⟨one, continues⟩ front ahead
    cases front with
    | nil => exact ⟨[], bf, fd, rfl, rfl⟩
    | cons first front =>
        obtain ⟨rfl, later⟩ := List.cons_prefix_cons.mp ahead
        obtain ⟨replies, bf', fd', calls, split⟩ := continues front later
        refine ⟨.bytes answer :: replies, bf', fd', ?_, ?_⟩
        · rw [List.map_cons, bufferedCalls_cons step, calls]
          rfl
        · rw [one, split, deliveredBytes_cons (.bytes answer) replies,
            List.append_assoc]

theorem continues_iff_clean
    (counts : List Nat) {bf : BufferedFile} {fd : OpenFile Byte}
    (wellFormed : WellFormed bf) (readable : fd.readable = true)
    (noPending : bf.writeBufferPos = 0) :
    Continues (stream bf fd) counts bf fd ↔ Clean counts bf fd := by
  induction counts generalizing bf fd with
  | nil =>
      refine ⟨fun _ => trivial, fun _ front ahead => ?_⟩
      obtain rfl := List.prefix_nil.mp ahead
      exact ⟨[], bf, fd, rfl, rfl⟩
  | cons count rest ih =>
      obtain ⟨answer, taken, bf₁, fd₁, result, outcome⟩ :=
        bufferedRead_outcome wellFormed readable noPending count
      have consumed := outcome.consumed
      rw [continues_cons result, outcome.keeps_iff,
        ih consumed.wellFormed (consumed.readable.trans readable)
          (consumed.writeBufferPos.trans noPending), Clean]
      simp [result]

/--
A run of reads loses nothing exactly when every call that comes to a failing
refill starts with it.
-/
theorem read_session_lossless_iff
    (heap : Heap)
    (file : Option (List Byte))
    (flags : Flags)
    (outcomes : List Outcome)
    (counts : List Nat)
    (bf : BufferedFile)
    (fd : OpenFile Byte)
    (opened : bufferedOpen heap file flags outcomes = some (bf, fd))
    (readable : fd.readable = true) :
    Continues fd.content counts bf fd ↔ Clean counts bf fd := by
  obtain ⟨wellFormed, noPending, streamEq⟩ := start_opened opened
  rw [← streamEq]
  exact continues_iff_clean counts wellFormed readable noPending

/-- The first refill of the first call fails: nothing is lost. -/
theorem read_session_lossless_first :
    ∃ bf fd, twoBytes [.full, .error] = some (bf, fd) ∧
      Continues [1, 2] [2] bf fd := by
  refine ⟨_, _, rfl, ?_⟩
  refine (read_session_lossless_iff (.ample zeroMemory zeroMemory)
    (some [1, 2]) O_RDONLY [.full, .error] [2] _ _ rfl (by decide)).mpr ?_
  refine ⟨fun _ => ⟨by simp [BufferedFile.leftover], rfl⟩, ?_⟩
  intro _ _ _ _
  exact trivial

/--
A call for two bytes gets one and then an error; the next call delivers the
second byte, which is no beginning of the file.
-/
theorem failed_read_loses_byte :
    ((twoBytes [.full, .short 1, .error]).bind fun state =>
        (bufferedCalls ([2, 2].map .read) state.1 state.2).map
          fun result => result.1) =
        some [.bytes none, .bytes (some [2])] ∧
      ¬ deliveredBytes [.bytes none, .bytes (some [2])] <+: [1, 2] := by
  refine ⟨by decide +kernel, by decide⟩

end OSCourse.BufferedIo
