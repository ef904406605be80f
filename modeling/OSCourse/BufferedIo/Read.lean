import OSCourse.BufferedIo.Flush

/-!
# What reading does when every system call succeeds

A read consumes the stream of the bytes read ahead followed by the file behind
the kernel offset.  Refills come in whole buffers, so the kernel offset only
stops at the end of the file or a whole number of buffers behind the place
where reading began.
-/

namespace OSCourse.BufferedIo

open OSCourse.Library.PosixFile

/-- The bytes the next reads deliver. -/
def stream (bf : BufferedFile) (fd : OpenFile Byte) : List Byte :=
  bf.leftover ++ fd.content.drop fd.offset

/-- The structure once `count` bytes of the read buffer have been delivered. -/
def delivered (bf : BufferedFile) (count : Nat) : BufferedFile :=
  { bf with readBufferPos := bf.readBufferPos + count }

theorem WellFormed.length_leftover
    {bf : BufferedFile} (wellFormed : WellFormed bf) :
    bf.leftover.length = bf.readBufferSize - bf.readBufferPos := by
  have size := wellFormed.readSize
  simp only [BufferedFile.leftover, List.length_drop, List.length_take,
    wellFormed.readLength]
  omega

theorem take_leftover
    (bf : BufferedFile) {count : Nat}
    (available : count ≤ bf.readBufferSize - bf.readBufferPos) :
    (bf.readBuffer.drop bf.readBufferPos).take count =
      bf.leftover.take count := by
  rw [BufferedFile.leftover, List.drop_take, List.take_take,
    Nat.min_eq_left available]

theorem leftover_delivered (bf : BufferedFile) (count : Nat) :
    (delivered bf count).leftover = bf.leftover.drop count := by
  rw [BufferedFile.leftover, BufferedFile.leftover, List.drop_drop]
  rfl

theorem wellFormed_delivered
    {bf : BufferedFile} (wellFormed : WellFormed bf) {count : Nat}
    (available : count ≤ bf.readBufferSize - bf.readBufferPos) :
    WellFormed (delivered bf count) := by
  have bound := wellFormed.readPos
  refine ⟨wellFormed.writeLength, wellFormed.writeSize, wellFormed.writePos,
    wellFormed.readLength, wellFormed.readSize, ?_⟩
  change bf.readBufferPos + count ≤ bf.readBufferSize
  omega

/-! ## Refills -/

/-- The structure after a refill that delivered `bytes`. -/
def refilled (bf : BufferedFile) (bytes : List Byte) : BufferedFile :=
  { bf with
    readBuffer := memcpy bf.readBuffer 0 bytes
    readBufferSize := bytes.length
    readBufferPos := 0 }

theorem refill_eq
    {fd : OpenFile Byte} (reliable : fd.Reliable) (bf : BufferedFile)
    {bytes : List Byte}
    (chunk : (fd.content.drop fd.offset).take BUFFER_SIZE = bytes)
    (nonempty : bytes ≠ []) :
    refill bf fd =
      (some bytes, refilled bf bytes,
        { fd with offset := fd.offset + bytes.length }) := by
  rw [refill, reliable.read_eq, chunk]
  cases bytes with
  | nil => exact absurd rfl nonempty
  | cons byte rest => rfl

theorem refill_end
    {fd : OpenFile Byte} (reliable : fd.Reliable) (bf : BufferedFile)
    (atEnd : (fd.content.drop fd.offset).take BUFFER_SIZE = []) :
    refill bf fd = (some [], bf, fd) := by
  rw [refill, reliable.read_eq, atEnd]
  rfl

theorem leftover_refilled
    {bf : BufferedFile} {bytes : List Byte} (wellFormed : WellFormed bf)
    (fits : bytes.length ≤ BUFFER_SIZE) :
    (refilled bf bytes).leftover = bytes := by
  have inside : 0 + bytes.length ≤ bf.readBuffer.length := by
    rw [wellFormed.readLength]
    omega
  have stored := memcpy_take inside
  simp only [Nat.zero_add, List.take_zero, List.nil_append] at stored
  simp [BufferedFile.leftover, refilled, stored]

theorem wellFormed_refilled
    {bf : BufferedFile} {bytes : List Byte} (wellFormed : WellFormed bf)
    (fits : bytes.length ≤ BUFFER_SIZE) :
    WellFormed (refilled bf bytes) := by
  refine ⟨wellFormed.writeLength, wellFormed.writeSize, wellFormed.writePos,
    ?_, fits, Nat.zero_le _⟩
  rw [← wellFormed.readLength]
  apply memcpy_length
  rw [wellFormed.readLength]
  omega

/-! ## Where the kernel offset can stand -/

/--
The kernel offset is the end of the file or `refills` buffers behind `base`,
and a byte of the last refill has been delivered.
-/
def Window (base : Nat) (bf : BufferedFile) (fd : OpenFile Byte) : Prop :=
  ∃ refills,
    fd.offset = min fd.content.length (base + refills * BUFFER_SIZE) ∧
      (bf.leftover ≠ [] →
        base + refills * BUFFER_SIZE + bf.leftover.length <
          fd.offset + BUFFER_SIZE)

/-- Everything a read establishes about the state it leaves. -/
structure ReadDone (bf : BufferedFile) (fd : OpenFile Byte) (count : Nat)
    (bf' : BufferedFile) (fd' : OpenFile Byte) : Prop where
  wellFormed : WellFormed bf'
  stream : stream bf' fd' = (stream bf fd).drop count
  writeBuffer : bf'.writeBuffer = bf.writeBuffer
  writeBufferPos : bf'.writeBufferPos = bf.writeBufferPos
  preappend : bf'.preappend = bf.preappend
  file : ∃ offset, fd' = { fd with offset := offset }
  forward : fd.offset ≤ fd'.offset
  inside : fd.offset ≤ fd.content.length → fd'.offset ≤ fd.content.length
  window : ∀ base, Window base bf fd → Window base bf' fd'

theorem ReadDone.refl
    {bf : BufferedFile} {fd : OpenFile Byte} (wellFormed : WellFormed bf) :
    ReadDone bf fd 0 bf fd :=
  ⟨wellFormed, rfl, rfl, rfl, rfl, ⟨fd.offset, rfl⟩, Nat.le_refl _,
    fun inside => inside, fun _ window => window⟩

theorem ReadDone.trans
    {bf bf₁ bf₂ : BufferedFile} {fd fd₁ fd₂ : OpenFile Byte}
    {count₁ count₂ : Nat}
    (first : ReadDone bf fd count₁ bf₁ fd₁)
    (second : ReadDone bf₁ fd₁ count₂ bf₂ fd₂) :
    ReadDone bf fd (count₁ + count₂) bf₂ fd₂ := by
  obtain ⟨offset₁, rfl⟩ := first.file
  obtain ⟨offset₂, rfl⟩ := second.file
  refine ⟨second.wellFormed, ?_, second.writeBuffer.trans first.writeBuffer,
    second.writeBufferPos.trans first.writeBufferPos,
    second.preappend.trans first.preappend, ⟨offset₂, rfl⟩,
    first.forward.trans second.forward, ?_, ?_⟩
  · rw [second.stream, first.stream, List.drop_drop]
  · intro inside
    exact second.inside (first.inside inside)
  · intro base window
    exact second.window base (first.window base window)

/-- One copy out of a read buffer that holds bytes. -/
theorem readDone_copy
    {bf : BufferedFile} {fd : OpenFile Byte} (wellFormed : WellFormed bf)
    {count : Nat} (positive : 0 < count)
    (available : count ≤ bf.readBufferSize - bf.readBufferPos) :
    ReadDone bf fd count (delivered bf count) fd := by
  have length := wellFormed.length_leftover
  refine ⟨wellFormed_delivered wellFormed available, ?_, rfl, rfl, rfl,
    ⟨fd.offset, rfl⟩, Nat.le_refl _, fun inside => inside, ?_⟩
  · rw [stream, stream, leftover_delivered,
      List.drop_append_of_le_length (by omega)]
  · rintro base ⟨refills, offset, late⟩
    refine ⟨refills, offset, ?_⟩
    intro remaining
    have nonempty : bf.leftover ≠ [] := by
      intro empty
      rw [leftover_delivered, empty] at remaining
      simp at remaining
    have bound := late nonempty
    rw [leftover_delivered, List.length_drop]
    omega

/-- A refill of an exhausted buffer, followed by one copy. -/
theorem readDone_refill_copy
    {bf : BufferedFile} {fd : OpenFile Byte} (wellFormed : WellFormed bf)
    (exhausted : bf.leftover = []) {bytes : List Byte}
    (chunk : (fd.content.drop fd.offset).take BUFFER_SIZE = bytes)
    (nonempty : bytes ≠ []) {count : Nat} (positive : 0 < count)
    (available : count ≤ bytes.length) :
    ReadDone bf fd count (delivered (refilled bf bytes) count)
      { fd with offset := fd.offset + bytes.length } := by
  have chunkLength : bytes.length =
      min BUFFER_SIZE (fd.content.length - fd.offset) := by
    rw [← chunk, List.length_take, List.length_drop]
  have fits : bytes.length ≤ BUFFER_SIZE := by omega
  have some : 0 < bytes.length := List.length_pos_iff.mpr nonempty
  have leftover := leftover_refilled wellFormed fits
  have refilledWell := wellFormed_refilled wellFormed fits
  refine ⟨wellFormed_delivered refilledWell available, ?_, rfl, rfl, rfl,
    ⟨fd.offset + bytes.length, rfl⟩, Nat.le_add_right _ _, ?_, ?_⟩
  · have split : fd.content.drop fd.offset =
        bytes ++ fd.content.drop (fd.offset + bytes.length) := by
      have exact : bytes =
          (fd.content.drop fd.offset).take bytes.length :=
        calc
          bytes = (fd.content.drop fd.offset).take BUFFER_SIZE := chunk.symm
          _ = (fd.content.drop fd.offset).take bytes.length := by
            rw [List.take_eq_take_iff, List.length_drop]
            omega
      rw [← List.drop_drop]
      conv_lhs =>
        rw [← List.take_append_drop bytes.length
          (fd.content.drop fd.offset), ← exact]
    rw [stream, stream, leftover_delivered, leftover, exhausted,
      List.nil_append, split, List.drop_append_of_le_length available]
  · intro inside
    change fd.offset + bytes.length ≤ fd.content.length
    omega
  · rintro base ⟨refills, offset, -⟩
    have start : fd.offset = base + refills * BUFFER_SIZE := by omega
    refine ⟨refills + 1, ?_, ?_⟩
    · change fd.offset + bytes.length = min fd.content.length _
      rw [Nat.add_mul]
      omega
    · intro _
      rw [leftover_delivered, leftover, List.length_drop, Nat.add_mul]
      change _ < fd.offset + bytes.length + BUFFER_SIZE
      omega

theorem ReadDone.reliable
    {bf bf' : BufferedFile} {fd fd' : OpenFile Byte} {count : Nat}
    (done : ReadDone bf fd count bf' fd') (reliable : fd.Reliable) :
    fd'.Reliable := by
  obtain ⟨offset, rfl⟩ := done.file
  exact reliable.seek offset

/-! ## The loop -/

/-- With `outBuf` copied so far, the loop delivers the next bytes of the
stream, as many as there are. -/
def LoopDelivers (count fuel : Nat) (outBuf : List Byte)
    (bf : BufferedFile) (fd : OpenFile Byte) : Prop :=
  ∃ bf' fd',
    bufferedReadLoop count fuel outBuf bf fd =
        some (some (outBuf ++ (stream bf fd).take (count - outBuf.length)),
          bf', fd') ∧
      ReadDone bf fd (count - outBuf.length) bf' fd'

/-- One copy, and the rest of the loop after it. -/
theorem LoopDelivers.after_copy
    {count fuel toCopy : Nat} {outBuf piece : List Byte}
    {bf bf₁ : BufferedFile} {fd fd₁ : OpenFile Byte}
    (rest : LoopDelivers count fuel (outBuf ++ piece) bf₁ fd₁)
    (copy : ReadDone bf fd toCopy bf₁ fd₁)
    (pieceEq : piece = (stream bf fd).take toCopy)
    (pieceLength : piece.length = toCopy)
    (small : toCopy ≤ count - outBuf.length) :
    ∃ bf' fd',
      bufferedReadLoop count fuel (outBuf ++ piece) bf₁ fd₁ =
          some (some (outBuf ++ (stream bf fd).take (count - outBuf.length)),
            bf', fd') ∧
        ReadDone bf fd (count - outBuf.length) bf' fd' := by
  obtain ⟨bf', fd', result, done⟩ := rest
  have newLength : (outBuf ++ piece).length = outBuf.length + toCopy := by
    rw [List.length_append, pieceLength]
  have total : toCopy + (count - (outBuf ++ piece).length) =
      count - outBuf.length := by
    omega
  refine ⟨bf', fd', ?_, ?_⟩
  · rw [result, copy.stream, pieceEq, List.append_assoc, ← List.take_add,
      ← pieceEq, total]
  · rw [← total]
    exact copy.trans done

/-- At the end of the file there is nothing left to deliver. -/
theorem delivers_at_end
    {count : Nat} {outBuf : List Byte} {bf : BufferedFile}
    {fd : OpenFile Byte} (wellFormed : WellFormed bf)
    (empty : bf.leftover = [])
    (chunk : (fd.content.drop fd.offset).take BUFFER_SIZE = []) :
    some (some outBuf, bf, fd) =
        some (some (outBuf ++ (stream bf fd).take (count - outBuf.length)),
          bf, fd) ∧
      ReadDone bf fd (count - outBuf.length) bf fd := by
  have nothing : stream bf fd = [] := by
    rw [stream, empty, List.nil_append]
    rcases List.take_eq_nil_iff.mp chunk with zero | nothing
    · exact absurd zero (by decide)
    · exact nothing
  have done : ReadDone bf fd 0 bf fd := .refl wellFormed
  refine ⟨by simp [nothing], ?_⟩
  exact ⟨done.wellFormed, by simp [nothing], rfl, rfl, rfl, done.file,
    done.forward, done.inside, done.window⟩

/-- The loop delivers the next bytes of the stream, as many as there are. -/
theorem bufferedReadLoop_eq
    (count fuel : Nat) (outBuf : List Byte)
    {bf : BufferedFile} {fd : OpenFile Byte}
    (wellFormed : WellFormed bf) (reliable : fd.Reliable)
    (bound : outBuf.length ≤ count)
    (enough : count - outBuf.length < fuel) :
    LoopDelivers count fuel outBuf bf fd := by
  induction fuel generalizing outBuf bf fd with
  | zero => omega
  | succ fuel ih =>
      have step :
          ∀ {bf₁ : BufferedFile} {fd₁ : OpenFile Byte} {toCopy : Nat}
            {piece : List Byte},
            ReadDone bf fd toCopy bf₁ fd₁ → piece.length = toCopy →
            0 < toCopy → toCopy ≤ count - outBuf.length →
            LoopDelivers count fuel (outBuf ++ piece) bf₁ fd₁ := by
        intro bf₁ fd₁ toCopy piece copy pieceLength positive small
        have newLength : (outBuf ++ piece).length =
            outBuf.length + toCopy := by
          rw [List.length_append, pieceLength]
        exact ih (outBuf ++ piece) copy.wellFormed (copy.reliable reliable)
          (by omega) (by omega)
      unfold LoopDelivers
      rw [bufferedReadLoop]
      by_cases more : outBuf.length < count
      · rw [if_pos more]
        dsimp only
        by_cases exhausted : bf.readBufferSize - bf.readBufferPos = 0
        · rw [if_pos exhausted]
          have empty : bf.leftover = [] := by
            apply List.eq_nil_of_length_eq_zero
            rw [wellFormed.length_leftover, exhausted]
          generalize chunk :
            (fd.content.drop fd.offset).take BUFFER_SIZE = bytes
          by_cases ended : bytes = []
          · subst ended
            rw [refill_end reliable bf chunk]
            exact ⟨bf, fd, delivers_at_end wellFormed empty chunk⟩
          · rw [refill_eq reliable bf chunk ended]
            obtain ⟨byte, rest, consEq⟩ := List.exists_cons_of_ne_nil ended
            have chunkLength : bytes.length ≤ BUFFER_SIZE := by
              rw [← chunk, List.length_take]
              omega
            have some : 0 < bytes.length := List.length_pos_iff.mpr ended
            have leftover := leftover_refilled wellFormed chunkLength
            generalize copyEq :
              min (count - outBuf.length)
                ((refilled bf bytes).readBufferSize -
                  (refilled bf bytes).readBufferPos) = toCopy
            have available : toCopy ≤ bytes.length := by
              rw [← copyEq]
              exact Nat.min_le_right _ _
            have positive : 0 < toCopy := by
              rw [← copyEq]
              change 0 < min (count - outBuf.length) (bytes.length - 0)
              omega
            have small : toCopy ≤ count - outBuf.length := by
              rw [← copyEq]
              exact Nat.min_le_left _ _
            have copy := readDone_refill_copy wellFormed empty chunk ended
              positive available
            have length : (bytes.take toCopy).length = toCopy := by
              rw [List.length_take, Nat.min_eq_left available]
            subst consEq
            dsimp only
            rw [copyEq, take_leftover _ available, leftover]
            refine (step copy length positive small).after_copy copy ?_
              length small
            rw [stream, empty, List.nil_append, ← chunk, List.take_take,
              Nat.min_eq_left (available.trans chunkLength)]
        · rw [if_neg exhausted]
          generalize copyEq :
            min (count - outBuf.length)
              (bf.readBufferSize - bf.readBufferPos) = toCopy
          have available : toCopy ≤
              bf.readBufferSize - bf.readBufferPos := by
            omega
          have positive : 0 < toCopy := by omega
          have small : toCopy ≤ count - outBuf.length := by omega
          have whole := wellFormed.length_leftover
          have copy : ReadDone bf fd toCopy (delivered bf toCopy) fd :=
            readDone_copy wellFormed positive available
          have length : (bf.leftover.take toCopy).length = toCopy := by
            rw [List.length_take]
            omega
          rw [take_leftover _ available]
          refine (step copy length positive small).after_copy copy ?_
            length small
          rw [stream, List.take_append_of_le_length (by omega)]
      · have done : count - outBuf.length = 0 := by omega
        rw [if_neg more, done]
        exact ⟨bf, fd, by simp, ReadDone.refl wellFormed⟩

/-- A `buffered_read` flushes what is pending and consumes the stream. -/
theorem bufferedRead_eq
    {bf : BufferedFile} {fd : OpenFile Byte}
    (wellFormed : WellFormed bf) (reliable : fd.Reliable) (count : Nat) :
    ∃ bf' fd',
      bufferedRead bf fd count =
          some (some ((stream bf
            (flushed bf.preappend fd bf.pending)).take count), bf', fd') ∧
        ReadDone { bf with writeBufferPos := 0 }
          (flushed bf.preappend fd bf.pending) count bf' fd' := by
  have emptied : WellFormed { bf with writeBufferPos := 0 } :=
    ⟨wellFormed.writeLength, wellFormed.writeSize, bufferSize_pos,
      wellFormed.readLength, wellFormed.readSize, wellFormed.readPos⟩
  have loop := bufferedReadLoop_eq count (count + 1) [] emptied
    (reliable_flushed reliable bf.preappend bf.pending)
    (Nat.zero_le _) (by simp)
  have afterFlush : bufferedRead bf fd count =
      bufferedReadLoop count (count + 1) []
        { bf with writeBufferPos := 0 }
        (flushed bf.preappend fd bf.pending) := by
    unfold bufferedRead
    by_cases empty : bf.writeBufferPos = 0
    · rw [if_neg (by omega), flushed, if_pos (pending_eq_nil empty)]
      cases bf
      simp_all
    · rw [if_pos (by omega),
        bufferedFlush_eq (flawless_of_reliable reliable _)
          wellFormed.length_pending]
      simp
  simp only [LoopDelivers, List.length_nil, Nat.sub_zero,
    List.nil_append] at loop
  rw [afterFlush]
  exact loop

end OSCourse.BufferedIo
