import OSCourse.BufferedIo.BufferedOpen
import OSCourse.Library.Chunks

/-!
# What flushing and writing do when every system call succeeds

A flush has one effect on the open file, described by `flushed`.  A
`buffered_write` cuts the pending bytes and the new data into full buffers,
flushes these in order and keeps the rest pending, in both write modes.
-/

namespace OSCourse.BufferedIo

open OSCourse.Library.PosixFile
open OSCourse.Library.Chunks

theorem bufferSize_pos : 0 < BUFFER_SIZE := by
  decide

/-! ## Well-formed structures -/

/-- What `buffered_open` establishes and every successful call keeps. -/
structure WellFormed (bf : BufferedFile) : Prop where
  writeLength : bf.writeBuffer.length = BUFFER_SIZE
  writeSize : bf.writeBufferSize = BUFFER_SIZE
  writePos : bf.writeBufferPos < BUFFER_SIZE
  readLength : bf.readBuffer.length = BUFFER_SIZE
  readSize : bf.readBufferSize ≤ BUFFER_SIZE
  readPos : bf.readBufferPos ≤ bf.readBufferSize

theorem memcpy_length
    {buffer source : List Byte} {offset : Nat}
    (fits : offset + source.length ≤ buffer.length) :
    (memcpy buffer offset source).length = buffer.length := by
  simp only [memcpy, List.length_append, List.length_take, List.length_drop]
  omega

theorem memcpy_take
    {buffer source : List Byte} {offset : Nat}
    (fits : offset + source.length ≤ buffer.length) :
    (memcpy buffer offset source).take (offset + source.length) =
      buffer.take offset ++ source := by
  have size : (buffer.take offset ++ source).length =
      offset + source.length := by
    simp only [List.length_append, List.length_take]
    omega
  rw [memcpy, ← size, List.take_left]

theorem WellFormed.length_pending
    {bf : BufferedFile} (wellFormed : WellFormed bf) :
    bf.pending.length = bf.writeBufferPos := by
  have bound := wellFormed.writePos
  simp only [BufferedFile.pending, List.length_take, wellFormed.writeLength]
  omega

theorem pending_eq_nil
    {bf : BufferedFile} (empty : bf.writeBufferPos = 0) :
    bf.pending = [] := by
  simp [BufferedFile.pending, empty]

/-! ## One flush -/

/-- The file once `data` has been put in front of its content. -/
def prepended (fd : OpenFile Byte) (data : List Byte) : OpenFile Byte :=
  let written := { fd with offset := 0 }.store data
  if fd.content = [] then written else written.store fd.content

/-- The effect of a successful flush of `data`. -/
def flushed (preappend : Bool) (fd : OpenFile Byte) (data : List Byte) :
    OpenFile Byte :=
  if data = [] then
    fd
  else if preappend then
    prepended fd data
  else
    fd.store data

theorem reliable_prepended
    {fd : OpenFile Byte} (reliable : fd.Reliable) (data : List Byte) :
    (prepended fd data).Reliable := by
  unfold prepended
  split
  · exact (reliable.seek 0).store data
  · exact ((reliable.seek 0).store data).store fd.content

theorem reliable_flushed
    {fd : OpenFile Byte} (reliable : fd.Reliable)
    (preappend : Bool) (data : List Byte) :
    (flushed preappend fd data).Reliable := by
  unfold flushed
  split
  · exact reliable
  · split
    · exact reliable_prepended reliable data
    · exact reliable.store data

/-- Every call of the system that a flush makes succeeds. -/
structure Flawless (preappend : Bool) (fd : OpenFile Byte) : Prop where
  outcomes : fd.outcomes = []
  writable : fd.writable = true
  readable : preappend = true → fd.readable = true

theorem Flawless.reliable {fd : OpenFile Byte} (flawless : Flawless true fd) :
    fd.Reliable :=
  ⟨flawless.outcomes, flawless.readable rfl, flawless.writable⟩

theorem flawless_of_reliable
    {fd : OpenFile Byte} (reliable : fd.Reliable) (preappend : Bool) :
    Flawless preappend fd :=
  ⟨reliable.outcomes, reliable.writable, fun _ => reliable.readable⟩

theorem Flawless.write_eq
    {preappend : Bool} {fd : OpenFile Byte}
    (flawless : Flawless preappend fd) (data : List Byte) :
    fd.write data = ((data.length : Int), fd.store data) := by
  simp [OpenFile.write, OpenFile.outcome_of_nil flawless.outcomes,
    OpenFile.advance_of_nil flawless.outcomes, flawless.writable,
    OpenFile.writeLimit]

theorem Flawless.afterFlush
    {preappend : Bool} {fd : OpenFile Byte}
    (flawless : Flawless preappend fd) (mode : Bool) (data : List Byte) :
    Flawless preappend (flushed mode fd data) := by
  unfold flushed prepended
  split
  · exact flawless
  · split
    · dsimp only
      split <;> exact ⟨flawless.outcomes, flawless.writable, flawless.readable⟩
    · exact ⟨flawless.outcomes, flawless.writable, flawless.readable⟩

theorem append_flushed
    (preappend : Bool) (fd : OpenFile Byte) (data : List Byte) :
    (flushed preappend fd data).append = fd.append := by
  unfold flushed prepended
  split
  · rfl
  · split
    · dsimp only
      split <;> rfl
    · rfl

theorem readExisting_eq
    {fd : OpenFile Byte} (reliable : fd.Reliable) :
    readExisting fd fd.content.length =
      (some fd.content,
        if fd.content = [] then fd
        else { fd with offset := fd.content.length }) := by
  unfold readExisting
  by_cases empty : fd.content = []
  · simp [empty]
  · have positive : fd.content.length ≠ 0 := by
      simpa using empty
    rw [if_neg positive, if_neg (by simp [reliable.outcome_eq]),
      reliable.advance_eq, reliable.lseek_set]
    dsimp only
    rw [(reliable.seek 0).read_eq]
    simp [empty]

theorem preappendFlush_eq
    {fd : OpenFile Byte} (reliable : fd.Reliable) (data : List Byte) :
    preappendFlush fd data = (true, prepended fd data) := by
  have atEnd : readExisting { fd with offset := fd.content.length }
      fd.content.length =
        (some fd.content, { fd with offset := fd.content.length }) := by
    have existing := readExisting_eq (reliable.seek fd.content.length)
    dsimp only at existing
    rw [existing]
    split <;> rfl
  unfold preappendFlush
  rw [reliable.lseek_end]
  dsimp only
  rw [atEnd]
  dsimp only
  rw [(reliable.seek fd.content.length).lseek_set]
  dsimp only
  rw [(reliable.seek 0).write_eq]
  dsimp only
  rw [if_neg (by simp), prepended]
  by_cases empty : fd.content = []
  · simp [empty]
  · have positive : 0 < fd.content.length :=
      List.length_pos_iff.mpr empty
    rw [if_pos positive, ((reliable.seek 0).store data).write_eq]
    simp [empty]

theorem normalFlush_eq
    {preappend : Bool} {fd : OpenFile Byte}
    (flawless : Flawless preappend fd) (data : List Byte) :
    normalFlush fd data = (true, fd.store data) := by
  simp [normalFlush, flawless.write_eq]

/-- A flush never fails and has the effect `flushed` on the file. -/
theorem bufferedFlush_eq
    {bf : BufferedFile} {fd : OpenFile Byte}
    (flawless : Flawless bf.preappend fd)
    (length : bf.pending.length = bf.writeBufferPos) :
    bufferedFlush bf fd =
      (0, { bf with writeBufferPos := 0 },
        flushed bf.preappend fd bf.pending) := by
  unfold bufferedFlush flushed
  by_cases empty : bf.writeBufferPos = 0
  · rw [if_pos empty, if_pos (pending_eq_nil empty)]
    cases bf
    simp_all
  · have nonempty : bf.pending ≠ [] := by
      intro none
      simp [none] at length
      omega
    rw [if_neg empty, if_neg nonempty]
    cases mode : bf.preappend with
    | false => simp [normalFlush_eq flawless]
    | true =>
        rw [mode] at flawless
        simp [preappendFlush_eq flawless.reliable]

/-! ## Writing -/

/-- Flush the complete buffers of `data` in order. -/
def flushChunks (preappend : Bool) (fd : OpenFile Byte) (data : List Byte) :
    OpenFile Byte :=
  (fullChunks BUFFER_SIZE data).foldl (flushed preappend) fd

theorem Flawless.afterChunks
    {preappend : Bool} {fd : OpenFile Byte}
    (flawless : Flawless preappend fd) (mode : Bool) (data : List Byte) :
    Flawless preappend (flushChunks mode fd data) := by
  unfold flushChunks
  generalize fullChunks BUFFER_SIZE data = chunks
  induction chunks generalizing fd with
  | nil => exact flawless
  | cons chunk rest ih => exact ih (flawless.afterFlush mode chunk)

/--
How a `buffered_write` leaves the structure and the file: the complete buffers
are flushed, the rest is pending, and the read side is untouched.
-/
structure Written (bf : BufferedFile) (fd : OpenFile Byte) (data : List Byte)
    (bf' : BufferedFile) (fd' : OpenFile Byte) : Prop where
  wellFormed : WellFormed bf'
  pending : bf'.pending = lastChunk BUFFER_SIZE (bf.pending ++ data)
  file : fd' = flushChunks bf.preappend fd (bf.pending ++ data)
  preappend : bf'.preappend = bf.preappend
  readBuffer : bf'.readBuffer = bf.readBuffer
  readBufferSize : bf'.readBufferSize = bf.readBufferSize
  readBufferPos : bf'.readBufferPos = bf.readBufferPos

/-- Nothing is left to copy. -/
theorem written_nil
    {bf : BufferedFile} (wellFormed : WellFormed bf) (fd : OpenFile Byte) :
    Written bf fd [] bf fd := by
  have small : (bf.pending ++ []).length < BUFFER_SIZE := by
    rw [List.append_nil, wellFormed.length_pending]
    exact wellFormed.writePos
  refine ⟨wellFormed, ?_, ?_, rfl, rfl, rfl, rfl⟩
  · rw [lastChunk_of_lt small, List.append_nil]
  · rw [flushChunks, fullChunks_of_lt small, List.foldl_nil]

theorem pending_copyIn
    {bf : BufferedFile} {piece : List Byte} (wellFormed : WellFormed bf)
    (fits : bf.writeBufferPos + piece.length ≤ BUFFER_SIZE) :
    (copyIn bf piece).pending = bf.pending ++ piece := by
  have inside : bf.writeBufferPos + piece.length ≤ bf.writeBuffer.length := by
    rw [wellFormed.writeLength]
    exact fits
  exact memcpy_take inside

theorem wellFormed_copyIn
    {bf : BufferedFile} {piece : List Byte} (wellFormed : WellFormed bf)
    (fits : bf.writeBufferPos + piece.length < BUFFER_SIZE) :
    WellFormed (copyIn bf piece) := by
  refine ⟨?_, wellFormed.writeSize, fits, wellFormed.readLength,
    wellFormed.readSize, wellFormed.readPos⟩
  rw [← wellFormed.writeLength]
  apply memcpy_length
  rw [wellFormed.writeLength]
  omega

theorem wellFormed_copyIn_full
    {bf : BufferedFile} {piece : List Byte} (wellFormed : WellFormed bf)
    (fits : bf.writeBufferPos + piece.length ≤ BUFFER_SIZE) :
    WellFormed { copyIn bf piece with writeBufferPos := 0 } := by
  refine ⟨?_, wellFormed.writeSize, bufferSize_pos, wellFormed.readLength,
    wellFormed.readSize, wellFormed.readPos⟩
  rw [← wellFormed.writeLength]
  apply memcpy_length
  rw [wellFormed.writeLength]
  exact fits

/-- A piece that fills the buffer is flushed and the rest is written. -/
theorem written_full
    {bf bf' : BufferedFile} {fd fd' : OpenFile Byte} {piece rest : List Byte}
    (wellFormed : WellFormed bf)
    (full : bf.writeBufferPos + piece.length = BUFFER_SIZE)
    (later :
      Written { copyIn bf piece with writeBufferPos := 0 }
        (flushed bf.preappend fd (bf.pending ++ piece)) rest bf' fd') :
    Written bf fd (piece ++ rest) bf' fd' := by
  have front : (bf.pending ++ piece).length = BUFFER_SIZE := by
    rw [List.length_append, wellFormed.length_pending, full]
  have start : { copyIn bf piece with writeBufferPos := 0 }.pending = [] :=
    pending_eq_nil rfl
  refine ⟨later.wellFormed, ?_, ?_, later.preappend, later.readBuffer,
    later.readBufferSize, later.readBufferPos⟩
  · rw [later.pending, start, ← List.append_assoc,
      lastChunk_append front bufferSize_pos, List.nil_append]
  · rw [later.file, start, ← List.append_assoc, flushChunks, flushChunks,
      fullChunks_append front bufferSize_pos, List.foldl_cons,
      List.nil_append]
    rfl

/-- A piece that does not fill the buffer only becomes pending. -/
theorem written_partial
    {bf bf' : BufferedFile} {fd fd' : OpenFile Byte} {piece rest : List Byte}
    (wellFormed : WellFormed bf)
    (fits : bf.writeBufferPos + piece.length ≤ BUFFER_SIZE)
    (later : Written (copyIn bf piece) fd rest bf' fd') :
    Written bf fd (piece ++ rest) bf' fd' := by
  have pending := pending_copyIn wellFormed fits
  refine ⟨later.wellFormed, ?_, ?_, later.preappend, later.readBuffer,
    later.readBufferSize, later.readBufferPos⟩
  · rw [later.pending, pending, List.append_assoc]
  · rw [later.file, pending, List.append_assoc]
    rfl

theorem bufferedWriteLoop_eq
    (data : List Byte) (fuel bytesWritten : Nat)
    {bf : BufferedFile} {fd : OpenFile Byte}
    (wellFormed : WellFormed bf) (flawless : Flawless bf.preappend fd)
    (bound : bytesWritten ≤ data.length)
    (enough : data.length - bytesWritten < fuel) :
    ∃ bf' fd',
      bufferedWriteLoop data fuel bytesWritten bf fd =
          some ((data.length : Int), bf', fd') ∧
        Written bf fd (data.drop bytesWritten) bf' fd' := by
  induction fuel generalizing bytesWritten bf fd with
  | zero => omega
  | succ fuel ih =>
      rw [bufferedWriteLoop]
      by_cases more : bytesWritten < data.length
      · rw [if_pos more]
        dsimp only
        generalize hcopy :
          min (data.length - bytesWritten)
            (bf.writeBufferSize - bf.writeBufferPos) = toCopy
        have space := wellFormed.writePos
        have size := wellFormed.writeSize
        have positive : 0 < toCopy := by omega
        generalize hpiece : (data.drop bytesWritten).take toCopy = piece
        have pieceLength : piece.length = toCopy := by
          rw [← hpiece, List.length_take, List.length_drop]
          omega
        have fits : bf.writeBufferPos + piece.length ≤ BUFFER_SIZE := by
          omega
        have split : data.drop bytesWritten =
            piece ++ data.drop (bytesWritten + toCopy) := by
          rw [← hpiece, ← List.drop_drop, List.take_append_drop]
        rw [split]
        by_cases full : bf.writeBufferPos + piece.length = BUFFER_SIZE
        · have isFull : (copyIn bf piece).writeBufferPos =
              (copyIn bf piece).writeBufferSize := by
            change bf.writeBufferPos + piece.length = bf.writeBufferSize
            omega
          have pending := pending_copyIn wellFormed fits
          have length : (copyIn bf piece).pending.length =
              (copyIn bf piece).writeBufferPos := by
            rw [pending, List.length_append, wellFormed.length_pending]
            rfl
          rw [if_pos isFull,
            bufferedFlush_eq (show Flawless (copyIn bf piece).preappend fd
              from flawless) length]
          dsimp only
          rw [if_neg (by decide), pending]
          obtain ⟨bf', fd', result, later⟩ :=
            ih (bytesWritten + toCopy)
              (wellFormed_copyIn_full wellFormed fits)
              (flawless.afterFlush bf.preappend (bf.pending ++ piece))
              (by omega) (by omega)
          exact ⟨bf', fd', result, written_full wellFormed full later⟩
        · have notFull : (copyIn bf piece).writeBufferPos ≠
              (copyIn bf piece).writeBufferSize := by
            change bf.writeBufferPos + piece.length ≠ bf.writeBufferSize
            omega
          have smaller : bf.writeBufferPos + piece.length < BUFFER_SIZE := by
            omega
          rw [if_neg notFull]
          obtain ⟨bf', fd', result, later⟩ :=
            ih (bytesWritten + toCopy)
              (wellFormed_copyIn wellFormed smaller) flawless
              (by omega) (by omega)
          exact ⟨bf', fd', result, written_partial wellFormed fits later⟩
      · have done : bytesWritten = data.length := by omega
        rw [if_neg more, done, List.drop_length]
        exact ⟨bf, fd, rfl, written_nil wellFormed fd⟩

/-- `buffered_write` returns its count and feeds its data through the buffer. -/
theorem bufferedWrite_eq
    {bf : BufferedFile} {fd : OpenFile Byte}
    (wellFormed : WellFormed bf) (flawless : Flawless bf.preappend fd)
    (data : List Byte) :
    ∃ bf' fd',
      bufferedWrite bf fd data = some ((data.length : Int), bf', fd') ∧
        Written bf fd data bf' fd' := by
  simpa [bufferedWrite] using
    bufferedWriteLoop_eq data (data.length + 2) 0 wellFormed flawless
      (Nat.zero_le _) (by omega)

/-! ## Opening and closing -/

theorem wellFormed_opened
    {heap : Heap} {file : Option (List Byte)} {flags : Flags}
    {outcomes : List Outcome} {bf : BufferedFile} {fd : OpenFile Byte}
    (opened : bufferedOpen heap file flags outcomes = some (bf, fd)) :
    WellFormed bf ∧ bf.pending = [] ∧ bf.leftover = [] ∧
      bf.preappend = flags.has Flags.O_PREAPPEND ∧
      openFile file (systemFlags flags) outcomes = some fd := by
  unfold bufferedOpen at opened
  split at opened
  · contradiction
  · split at opened
    · contradiction
    · rename_i fd' openedFile
      split at opened
      · simp only [Option.some.injEq, Prod.mk.injEq] at opened
        obtain ⟨rfl, rfl⟩ := opened
        refine ⟨⟨by simp, rfl, bufferSize_pos, by simp, Nat.zero_le _,
          Nat.le_refl _⟩, by simp [BufferedFile.pending],
          by simp [BufferedFile.leftover], rfl, openedFile⟩
      · contradiction

/-- `buffered_close` flushes what is pending and reports success. -/
theorem bufferedClose_eq
    {bf : BufferedFile} {fd : OpenFile Byte}
    (wellFormed : WellFormed bf) (flawless : Flawless bf.preappend fd) :
    bufferedClose bf fd =
      (0, flushed bf.preappend fd bf.pending) := by
  have after := (flawless.afterFlush bf.preappend bf.pending).outcomes
  have flush := bufferedFlush_eq flawless wellFormed.length_pending
  unfold bufferedClose
  by_cases empty : bf.writeBufferPos = 0
  · have unchanged : flushed bf.preappend fd bf.pending = fd := by
      rw [flushed, if_pos (pending_eq_nil empty)]
    rw [unchanged] at after ⊢
    simp [empty, closeFile, OpenFile.outcome_of_nil after,
      OpenFile.advance_of_nil after]
  · have positive : 0 < bf.writeBufferPos := by omega
    rw [if_pos positive, flush]
    simp [closeFile, OpenFile.outcome_of_nil after,
      OpenFile.advance_of_nil after]

end OSCourse.BufferedIo
