import OSCourse.BufferedIo.FaultySessions

/-!
# Sessions that only write

The bytes of a session reach the file in chunks: the data between two explicit
flushes is cut after every `BUFFER_SIZE` bytes, and `buffered_close` flushes
what is left.  This holds in both write modes.  Without `O_PREAPPEND` the
chunks follow each other and amount to one direct `write` of everything; with
it they end up in reverse order in front of the old content.

The copies into the write buffer are listed beside the loop that makes them,
so that their bounds can be stated.
-/

namespace OSCourse.BufferedIo

open OSCourse.Library.PosixFile
open OSCourse.Library.Chunks
open Flags

/-! ## The chunks of a session -/

/-- The bytes written between two explicit flushes, for every such stretch. -/
def segments : List Call → List (List Byte)
  | [] => [[]]
  | .write data :: rest => (segments rest).modifyHead (data ++ ·)
  | .flush :: rest => [] :: segments rest
  | .read _ :: rest => segments rest

/-- A stretch cut after every `BUFFER_SIZE` bytes. -/
def cut (segment : List Byte) : List (List Byte) :=
  fullChunks BUFFER_SIZE segment ++ [lastChunk BUFFER_SIZE segment]

/-- The chunks in which a session reaches the file. -/
def chunks (calls : List Call) : List (List Byte) :=
  (segments calls).flatMap cut

/-- The chunks of a session that starts with pending bytes. -/
def chunksFrom (pending : List Byte) (calls : List Call) :
    List (List Byte) :=
  ((segments calls).modifyHead (pending ++ ·)).flatMap cut

theorem segments_ne_nil (calls : List Call) : segments calls ≠ [] := by
  induction calls with
  | nil => simp [segments]
  | cons call rest ih =>
      cases call with
      | write data => simpa [segments] using ih
      | flush => simp [segments]
      | read count => exact ih

theorem chunksFrom_nil (calls : List Call) :
    chunksFrom [] calls = chunks calls := by
  obtain ⟨segment, later, split⟩ :=
    List.exists_cons_of_ne_nil (segments_ne_nil calls)
  simp [chunksFrom, chunks, split]

theorem cut_of_lt
    {segment : List Byte} (small : segment.length < BUFFER_SIZE) :
    cut segment = [segment] := by
  simp [cut, small]

/-- What was cut before does not have to be cut again. -/
theorem cut_append (front back : List Byte) :
    cut (front ++ back) =
      fullChunks BUFFER_SIZE front ++
        cut (lastChunk BUFFER_SIZE front ++ back) := by
  rw [cut, cut, fullChunks_lastChunk_append bufferSize_pos,
    lastChunk_lastChunk_append bufferSize_pos, List.append_assoc]

theorem flatten_cut (segment : List Byte) :
    (cut segment).flatten = segment := by
  simpa [cut] using
    flatten_fullChunks_append_lastChunk BUFFER_SIZE segment

theorem chunksFrom_write
    (pending data : List Byte) (rest : List Call) :
    chunksFrom pending (.write data :: rest) =
      fullChunks BUFFER_SIZE (pending ++ data) ++
        chunksFrom (lastChunk BUFFER_SIZE (pending ++ data)) rest := by
  obtain ⟨segment, later, split⟩ :=
    List.exists_cons_of_ne_nil (segments_ne_nil rest)
  simp only [chunksFrom, segments, split, List.modifyHead_cons,
    List.flatMap_cons]
  rw [← List.append_assoc pending, cut_append, List.append_assoc]

theorem chunksFrom_flush
    {pending : List Byte} (small : pending.length < BUFFER_SIZE)
    (rest : List Call) :
    chunksFrom pending (.flush :: rest) =
      pending :: chunksFrom [] rest := by
  rw [chunksFrom_nil]
  simp [chunksFrom, chunks, segments, cut_of_lt small]

theorem flatten_segments (calls : List Call) :
    (segments calls).flatten = writtenBytes calls := by
  induction calls with
  | nil => rfl
  | cons call rest ih =>
      cases call with
      | write data =>
          obtain ⟨segment, later, split⟩ :=
            List.exists_cons_of_ne_nil (segments_ne_nil rest)
          rw [split, List.flatten_cons] at ih
          simp only [segments, split, List.modifyHead_cons, List.flatten_cons]
          rw [List.append_assoc, ih]
          rfl
      | flush => simpa [segments, writtenBytes, Call.data] using ih
      | read count => simpa [segments, writtenBytes, Call.data] using ih

/-- Cutting loses nothing: every byte is in exactly one chunk. -/
theorem flatten_chunks (calls : List Call) :
    (chunks calls).flatten = writtenBytes calls := by
  rw [← flatten_segments, chunks]
  induction segments calls with
  | nil => rfl
  | cons segment later ih =>
      rw [List.flatMap_cons, List.flatten_append, ih, flatten_cut,
        List.flatten_cons]

/-! ## A sequence of writes and flushes -/

/-- What a call answers when nothing goes wrong. -/
def Call.answer : Call → Reply
  | .write data => .status data.length
  | .flush => .status 0
  | .read _ => .bytes (some [])

/-- How a session of writes and flushes leaves the structure and the file. -/
structure Streamed (bf : BufferedFile) (fd : OpenFile Byte)
    (calls : List Call) (bf' : BufferedFile) (fd' : OpenFile Byte) :
    Prop where
  wellFormed : WellFormed bf'
  preappend : bf'.preappend = bf.preappend
  flawless : Flawless bf'.preappend fd'
  file : flushed bf.preappend fd' bf'.pending =
    (chunksFrom bf.pending calls).foldl (flushed bf.preappend) fd

/-- Every call succeeds, and the chunks are flushed one after the other. -/
theorem bufferedCalls_streamed
    {calls : List Call} (writeOnly : WriteOnly calls)
    {bf : BufferedFile} {fd : OpenFile Byte}
    (wellFormed : WellFormed bf) (flawless : Flawless bf.preappend fd) :
    ∃ bf' fd',
      bufferedCalls calls bf fd = some (calls.map Call.answer, bf', fd') ∧
        Streamed bf fd calls bf' fd' := by
  induction calls generalizing bf fd with
  | nil =>
      have small : bf.pending.length < BUFFER_SIZE := by
        rw [wellFormed.length_pending]
        exact wellFormed.writePos
      refine ⟨bf, fd, rfl, wellFormed, rfl, flawless, ?_⟩
      simp [chunksFrom, segments, cut_of_lt small]
  | cons call rest ih =>
      have later : WriteOnly rest :=
        fun other member => writeOnly other (List.mem_cons_of_mem call member)
      cases call with
      | read count =>
          exact absurd rfl (writeOnly (.read count) List.mem_cons_self count)
      | write data =>
          obtain ⟨bf₁, fd₁, result, written⟩ :=
            bufferedWrite_eq wellFormed flawless data
          have flawless₁ : Flawless bf₁.preappend fd₁ := by
            rw [written.file, written.preappend]
            exact flawless.afterChunks _ _
          obtain ⟨bf', fd', results, streamed⟩ :=
            ih later written.wellFormed flawless₁
          refine ⟨bf', fd', ?_, streamed.wellFormed,
            streamed.preappend.trans written.preappend, streamed.flawless, ?_⟩
          · simp [bufferedCalls, bufferedCall, result, results, Call.answer]
          · rw [← written.preappend, streamed.file, chunksFrom_write,
              List.foldl_append, written.file, written.pending,
              written.preappend, flushChunks]
      | flush =>
          have small : bf.pending.length < BUFFER_SIZE := by
            rw [wellFormed.length_pending]
            exact wellFormed.writePos
          have flush := bufferedFlush_eq flawless wellFormed.length_pending
          have emptied : WellFormed { bf with writeBufferPos := 0 } :=
            ⟨wellFormed.writeLength, wellFormed.writeSize, bufferSize_pos,
              wellFormed.readLength, wellFormed.readSize, wellFormed.readPos⟩
          obtain ⟨bf', fd', results, streamed⟩ :=
            ih later emptied (flawless.afterFlush bf.preappend bf.pending)
          refine ⟨bf', fd', ?_, streamed.wellFormed, streamed.preappend,
            streamed.flawless, ?_⟩
          · simp [bufferedCalls, bufferedCall, flush, results, Call.answer]
          · rw [chunksFrom_flush small, List.foldl_cons]
            have noPending : { bf with writeBufferPos := 0 }.pending = [] :=
              pending_eq_nil rfl
            rw [← noPending]
            exact streamed.file

/-- A whole session from `buffered_open` to `buffered_close`. -/
theorem session_streamed
    {heap : Heap} {file : Option (List Byte)} {flags : Flags}
    {bf : BufferedFile} {opened fd : OpenFile Byte}
    {calls : List Call} (writeOnly : WriteOnly calls)
    (open_ : bufferedOpen heap file flags [] = some (bf, opened))
    (flawless : Flawless bf.preappend fd) :
    ∃ bf' fd',
      bufferedCalls calls bf fd = some (calls.map Call.answer, bf', fd') ∧
        WellFormed bf' ∧
        bufferedClose bf' fd' =
          (0, (chunks calls).foldl (flushed bf.preappend) fd) := by
  obtain ⟨wellFormed, noPending, -, -, -⟩ := wellFormed_opened open_
  obtain ⟨bf', fd', results, streamed⟩ :=
    bufferedCalls_streamed writeOnly wellFormed flawless
  refine ⟨bf', fd', results, streamed.wellFormed, ?_⟩
  rw [bufferedClose_eq streamed.wellFormed streamed.flawless,
    streamed.preappend, streamed.file, noPending, chunksFrom_nil]

/-! ## The copies into the write buffer -/

/-- One `memcpy` into the write buffer: its position and its length. -/
structure Copy where
  position : Nat
  length : Nat

/-- The copies made by the loop of `buffered_write`. -/
def writeLoopCopies (data : List Byte) :
    Nat → Nat → BufferedFile → OpenFile Byte → List Copy
  | 0, _, _, _ => []
  | fuel + 1, bytesWritten, bf, fd =>
      if bytesWritten < data.length then
        let spaceLeft := bf.writeBufferSize - bf.writeBufferPos
        let toCopy := min (data.length - bytesWritten) spaceLeft
        let copy : Copy := ⟨bf.writeBufferPos, toCopy⟩
        let bf := copyIn bf ((data.drop bytesWritten).take toCopy)
        if bf.writeBufferPos = bf.writeBufferSize then
          let (result, bf, fd) := bufferedFlush bf fd
          if result = -1 then
            [copy]
          else
            copy :: writeLoopCopies data fuel (bytesWritten + toCopy) bf fd
        else
          copy :: writeLoopCopies data fuel (bytesWritten + toCopy) bf fd
      else
        []

/-- The copies made by `buffered_write`. -/
def writeCopies (bf : BufferedFile) (fd : OpenFile Byte)
    (data : List Byte) : List Copy :=
  writeLoopCopies data (data.length + 2) 0 bf fd

/-- The copy ends inside a buffer of `BUFFER_SIZE` bytes. -/
def Copy.Inside (copy : Copy) : Prop :=
  copy.position + copy.length ≤ BUFFER_SIZE

/-- A flush that does not fail empties the write buffer. -/
theorem bufferedFlush_empties
    {bf : BufferedFile} {fd : OpenFile Byte}
    (success : (bufferedFlush bf fd).1 ≠ -1) :
    (bufferedFlush bf fd).2.1 = { bf with writeBufferPos := 0 } := by
  unfold bufferedFlush at success ⊢
  by_cases empty : bf.writeBufferPos = 0
  · rw [if_pos empty]
    cases bf
    simp_all
  · rw [if_neg empty] at success ⊢
    dsimp only at success ⊢
    generalize (if bf.preappend then preappendFlush fd bf.pending
      else normalFlush fd bf.pending) = outcome at success ⊢
    cases flush : outcome.1 with
    | true => simp
    | false => simp [flush] at success

theorem writeLoopCopies_inside
    (data : List Byte) (fuel bytesWritten : Nat)
    {bf : BufferedFile} {fd : OpenFile Byte} (wellFormed : WellFormed bf)
    {copy : Copy}
    (made : copy ∈ writeLoopCopies data fuel bytesWritten bf fd) :
    copy.Inside := by
  induction fuel generalizing bytesWritten bf fd with
  | zero => simp [writeLoopCopies] at made
  | succ fuel ih =>
      rw [writeLoopCopies] at made
      by_cases more : bytesWritten < data.length
      · rw [if_pos more] at made
        dsimp only at made
        generalize hcopy :
          min (data.length - bytesWritten)
            (bf.writeBufferSize - bf.writeBufferPos) = toCopy at made
        have space := wellFormed.writePos
        have size := wellFormed.writeSize
        generalize hpiece : (data.drop bytesWritten).take toCopy = piece
          at made
        have pieceLength : piece.length = toCopy := by
          rw [← hpiece, List.length_take, List.length_drop]
          omega
        have fits : bf.writeBufferPos + piece.length ≤ BUFFER_SIZE := by
          omega
        have here : Copy.Inside ⟨bf.writeBufferPos, toCopy⟩ := by
          change bf.writeBufferPos + toCopy ≤ BUFFER_SIZE
          omega
        by_cases full : bf.writeBufferPos + piece.length = BUFFER_SIZE
        · have isFull : (copyIn bf piece).writeBufferPos =
              (copyIn bf piece).writeBufferSize := by
            change bf.writeBufferPos + piece.length = bf.writeBufferSize
            omega
          rw [if_pos isFull] at made
          by_cases failed : (bufferedFlush (copyIn bf piece) fd).1 = -1
          · rw [if_pos failed, List.mem_singleton] at made
            exact made ▸ here
          · rw [if_neg failed] at made
            rcases List.mem_cons.mp made with first | later
            · exact first ▸ here
            · rw [bufferedFlush_empties failed] at later
              exact ih _ (wellFormed_copyIn_full wellFormed fits) later
        · have notFull : (copyIn bf piece).writeBufferPos ≠
              (copyIn bf piece).writeBufferSize := by
            change bf.writeBufferPos + piece.length ≠ bf.writeBufferSize
            omega
          rw [if_neg notFull] at made
          rcases List.mem_cons.mp made with first | later
          · exact first ▸ here
          · exact ih _ (wellFormed_copyIn wellFormed (by omega)) later
      · simp [more] at made

theorem writeBuffer_bufferedFlush (bf : BufferedFile) (fd : OpenFile Byte) :
    (bufferedFlush bf fd).2.1.writeBuffer = bf.writeBuffer := by
  unfold bufferedFlush
  dsimp only
  by_cases empty : bf.writeBufferPos = 0
  · rw [if_pos empty]
  · rw [if_neg empty]
    generalize (if bf.preappend then preappendFlush fd bf.pending
      else normalFlush fd bf.pending) = outcome
    cases flush : outcome.1 <;> simp

/-- The write buffer after the copies of the data from `bytesWritten` on. -/
def replay (data : List Byte) : List Byte → Nat → List Copy → List Byte
  | buffer, _, [] => buffer
  | buffer, bytesWritten, copy :: rest =>
      replay data
        (memcpy buffer copy.position
          ((data.drop bytesWritten).take copy.length))
        (bytesWritten + copy.length) rest

/--
The copies are those of the loop: made one after the other on the write buffer
at its start they give the write buffer at its end, and a loop that does not
fail returns the sum of their lengths.
-/
theorem writeLoopCopies_replay
    {data : List Byte} {fuel bytesWritten : Nat} {bf bf' : BufferedFile}
    {fd fd' : OpenFile Byte} {result : Int}
    (ran : bufferedWriteLoop data fuel bytesWritten bf fd =
      some (result, bf', fd')) :
    replay data bf.writeBuffer bytesWritten
        (writeLoopCopies data fuel bytesWritten bf fd) = bf'.writeBuffer ∧
      (result = -1 ∨ result = bytesWritten +
        ((writeLoopCopies data fuel bytesWritten bf fd).map
          Copy.length).sum) := by
  induction fuel generalizing bytesWritten bf fd with
  | zero => simp [bufferedWriteLoop] at ran
  | succ fuel ih =>
      rw [bufferedWriteLoop] at ran
      rw [writeLoopCopies]
      by_cases more : bytesWritten < data.length
      · rw [if_pos more] at ran ⊢
        dsimp only at ran ⊢
        generalize min (data.length - bytesWritten)
          (bf.writeBufferSize - bf.writeBufferPos) = toCopy at ran ⊢
        split at ran
        · rename_i full
          rw [if_pos full]
          have kept := writeBuffer_bufferedFlush
            (copyIn bf ((data.drop bytesWritten).take toCopy)) fd
          split at ran
          · rename_i failed
            rw [if_pos failed]
            simp only [Option.some.injEq, Prod.mk.injEq] at ran
            rcases ran with ⟨rfl, rfl, rfl⟩
            exact ⟨kept.symm, .inl rfl⟩
          · rename_i success
            rw [if_neg success]
            rcases ih ran with ⟨buffer, count⟩
            rw [kept] at buffer
            refine ⟨buffer, count.imp_right fun equal => ?_⟩
            rw [equal, List.map_cons, List.sum_cons]
            push_cast
            omega
        · rename_i room
          rw [if_neg room]
          rcases ih ran with ⟨buffer, count⟩
          refine ⟨buffer, count.imp_right fun equal => ?_⟩
          rw [equal, List.map_cons, List.sum_cons]
          push_cast
          omega
      · rw [if_neg more] at ran ⊢
        simp only [Option.some.injEq, Prod.mk.injEq] at ran
        rcases ran with ⟨rfl, rfl, rfl⟩
        exact ⟨rfl, .inr (by simp)⟩

/-! ## Writing without `O_PREAPPEND` -/

/-- A direct `write` of everything; a `write` of no bytes does nothing. -/
def directWrite (fd : OpenFile Byte) (data : List Byte) : OpenFile Byte :=
  if data = [] then fd else (fd.write data).2

theorem store_store
    (fd : OpenFile Byte) (first second : List Byte) :
    (fd.store first).store second = fd.store (first ++ second) := by
  cases fd with
  | mk content offset readable writable append outcomes =>
      cases append with
      | true =>
          have adjacent :=
            overwrite_adjacent content content.length first second
          rw [overwrite_end, overwrite_end] at adjacent
          simp [OpenFile.store, OpenFile.writePosition, adjacent,
            Nat.add_assoc]
      | false =>
          simp [OpenFile.store, OpenFile.writePosition, overwrite_adjacent,
            Nat.add_assoc]

/-- Chunks flushed one after the other amount to one flush. -/
theorem foldl_flushed_normal
    (pieces : List (List Byte)) (fd : OpenFile Byte) :
    pieces.foldl (flushed false) fd = flushed false fd pieces.flatten := by
  induction pieces generalizing fd with
  | nil => simp [flushed]
  | cons piece rest ih =>
      rw [List.foldl_cons, ih, List.flatten_cons]
      by_cases empty : piece = []
      · simp [flushed, empty]
      · by_cases last : rest.flatten = []
        · simp [flushed, empty, last]
        · simp [flushed, empty, last, store_store]

theorem Flawless.directWrite_eq
    {preappend : Bool} {fd : OpenFile Byte}
    (flawless : Flawless preappend fd) (data : List Byte) :
    directWrite fd data = flushed false fd data := by
  simp [directWrite, flushed, flawless.write_eq]

/--
Write transparency: from any content and offset, with or without `O_APPEND`,
every call of the session returns its count, every copy stays inside the
write buffer, and the file ends up as after one direct `write` of everything.
-/
theorem write_session_transparent
    (heap : Heap)
    (file : Option (List Byte))
    (flags : Flags)
    (offset : Nat)
    (calls : List Call)
    (bf : BufferedFile)
    (fd : OpenFile Byte)
    (normal : flags.has O_PREAPPEND = false)
    (access : flags.accmode = O_WRONLY ∨ flags.accmode = O_RDWR)
    (writeOnly : WriteOnly calls)
    (opened : bufferedOpen heap file flags [] = some (bf, fd)) :
    ∃ bf' fd',
      bufferedCalls calls bf { fd with offset := offset } =
          some (calls.map Call.answer, bf', fd') ∧
        bf'.writeBufferPos ≤ BUFFER_SIZE ∧
        bf'.writeBuffer.length = BUFFER_SIZE ∧
        (∀ data, ∀ copy ∈ writeCopies bf' fd' data, copy.Inside) ∧
        (bufferedClose bf' fd').1 = 0 ∧
        (bufferedClose bf' fd').2.content =
          (directWrite { fd with offset := offset }
            (writtenBytes calls)).content := by
  obtain ⟨-, -, -, mode, openedFile⟩ := wellFormed_opened opened
  have unset : bf.preappend = false := mode.trans normal
  have flawless : Flawless bf.preappend { fd with offset := offset } := by
    refine ⟨?_, ?_, ?_⟩
    · exact (openFile_cases openedFile).2.2.2.2.1
    · have writable : fd.writable = true := writable_opened access openedFile
      exact writable
    · intro preappend
      rw [unset] at preappend
      cases preappend
  obtain ⟨bf', fd', results, wellFormed, closed⟩ :=
    session_streamed writeOnly opened flawless
  refine ⟨bf', fd', results, wellFormed.writePos.le, wellFormed.writeLength,
    ?_, ?_, ?_⟩
  · intro data copy made
    exact writeLoopCopies_inside data _ _ wellFormed made
  · rw [closed]
  · rw [closed, unset, foldl_flushed_normal, flatten_chunks,
      flawless.directWrite_eq]

/-- Two writes around a flush at the end of a file opened for appending. -/
theorem write_session_transparent_append :
    ∃ bf' fd',
      bufferedCalls [.write [1, 2], .flush, .write []]
          ((bufferedOpen (.ample zeroMemory zeroMemory) (some [7])
            (O_WRONLY ||| O_APPEND) []).get (by rfl)).1
          { ((bufferedOpen (.ample zeroMemory zeroMemory) (some [7])
            (O_WRONLY ||| O_APPEND) []).get (by rfl)).2 with offset := 5 } =
          some ([.status 2, .status 0, .status 0], bf', fd') ∧
        (bufferedClose bf' fd').2.content = [7, 1, 2] := by
  obtain ⟨bf', fd', results, -, -, -, -, content⟩ :=
    write_session_transparent (.ample zeroMemory zeroMemory) (some [7])
      (O_WRONLY ||| O_APPEND) 5 [.write [1, 2], .flush, .write []]
      _ _ (by decide) (by decide) (by simp [WriteOnly])
      (Option.some_get (by rfl)).symm
  exact ⟨bf', fd', results, content.trans (by rfl)⟩

/-! ## Writing with `O_PREAPPEND` -/

/-- A preappending file that may be written is read and written freely. -/
theorem reliable_preappend
    {file : Option (List Byte)} {flags : Flags} {fd : OpenFile Byte}
    (preappend : flags.has O_PREAPPEND = true)
    (access : flags.accmode = O_WRONLY ∨ flags.accmode = O_RDWR)
    (opened : openFile file (systemFlags flags) [] = some fd) :
    fd.Reliable ∧ fd.append = flags.has O_APPEND := by
  obtain ⟨reliable, append, -⟩ :=
    reliable_openFile
      (accmode_systemFlags_of_preappend preappend access) opened
  exact ⟨reliable, append.trans (has_append_systemFlags flags)⟩

/--
The layout of a preappending session: its chunks in reverse order, then the
old content.  Every written byte and every old byte is there exactly once.
-/
theorem preappend_session_layout
    (heap : Heap)
    (file : Option (List Byte))
    (flags : Flags)
    (calls : List Call)
    (bf : BufferedFile)
    (fd : OpenFile Byte)
    (preappend : flags.has O_PREAPPEND = true)
    (noAppend : flags.has O_APPEND = false)
    (access : flags.accmode = O_WRONLY ∨ flags.accmode = O_RDWR)
    (writeOnly : WriteOnly calls)
    (opened : bufferedOpen heap file flags [] = some (bf, fd)) :
    ∃ bf' fd',
      bufferedCalls calls bf fd =
          some (calls.map Call.answer, bf', fd') ∧
        (bufferedClose bf' fd').1 = 0 ∧
        (bufferedClose bf' fd').2.content =
          (chunks calls).reverse.flatten ++ fd.content ∧
        ((chunks calls).reverse.flatten ++ fd.content).Perm
          (writtenBytes calls ++ fd.content) := by
  obtain ⟨-, -, -, mode, openedFile⟩ := wellFormed_opened opened
  obtain ⟨reliable, append⟩ := reliable_preappend preappend access openedFile
  obtain ⟨bf', fd', results, -, closed⟩ :=
    session_streamed writeOnly opened (flawless_of_reliable reliable _)
  refine ⟨bf', fd', results, by rw [closed], ?_, ?_⟩
  · rw [closed, mode, preappend]
    exact (content_foldl_flushed (chunks calls) (append.trans noAppend)).2
  · apply List.Perm.append_right
    rw [← flatten_chunks calls]
    exact (List.reverse_perm (chunks calls)).flatten

/-- Two flushed pieces in front of `[7]`. -/
theorem preappend_session_layout_two :
    ∃ bf' fd',
      bufferedCalls [.write [1, 2], .flush, .write [3]]
          ((bufferedOpen (.ample zeroMemory zeroMemory) (some [7])
            (O_WRONLY ||| O_PREAPPEND) []).get (by rfl)).1
          ((bufferedOpen (.ample zeroMemory zeroMemory) (some [7])
            (O_WRONLY ||| O_PREAPPEND) []).get (by rfl)).2 =
          some ([.status 2, .status 0, .status 1], bf', fd') ∧
        (bufferedClose bf' fd').2.content = [3, 1, 2, 7] := by
  obtain ⟨bf', fd', results, -, content, -⟩ :=
    preappend_session_layout (.ample zeroMemory zeroMemory) (some [7])
      (O_WRONLY ||| O_PREAPPEND) [.write [1, 2], .flush, .write [3]]
      _ _ (by decide) (by decide) (by decide) (by simp [WriteOnly])
      (Option.some_get (by rfl)).symm
  refine ⟨bf', fd', results, content.trans ?_⟩
  have first : cut [1, 2] = [[1, 2]] := cut_of_lt (by decide)
  have second : cut [3] = [[3]] := cut_of_lt (by decide)
  simp [chunks, segments, first, second]
  rfl

/-! ## One flush with `O_PREAPPEND`, whatever the other flags -/

/-- With `O_APPEND` both writes of the flush land behind the old content. -/
theorem content_prepended_append
    {fd : OpenFile Byte} (append : fd.append = true) (data : List Byte) :
    (prepended fd data).content =
      if fd.content = [] then data
      else fd.content ++ data ++ fd.content := by
  unfold prepended
  by_cases empty : fd.content = []
  · simp [empty, OpenFile.store, OpenFile.writePosition, append, overwrite]
  · have adjacent :=
      overwrite_adjacent fd.content fd.content.length data fd.content
    rw [overwrite_end, overwrite_end] at adjacent
    simp [empty, OpenFile.store, OpenFile.writePosition, append, adjacent]

/--
A preappending flush leaves the data in front of the old content exactly when
the file was not opened with `O_APPEND` or was empty.
-/
theorem preappend_flush_exact_iff
    (heap : Heap)
    (file : Option (List Byte))
    (flags : Flags)
    (opened : BufferedFile)
    (fd : OpenFile Byte)
    (old data : List Byte)
    (offset : Nat)
    (bf : BufferedFile)
    (preappend : flags.has O_PREAPPEND = true)
    (access : flags.accmode = O_WRONLY ∨ flags.accmode = O_RDWR)
    (open_ : bufferedOpen heap file flags [] = some (opened, fd))
    (mode : bf.preappend = opened.preappend)
    (nonempty : data ≠ [])
    (position : bf.writeBufferPos = data.length)
    (pending : bf.pending = data) :
    (bufferedFlush bf
        { fd with content := old, offset := offset }).2.2.content =
        data ++ old ↔
      flags.has O_APPEND = false ∨ old = [] := by
  obtain ⟨-, -, -, openedMode, openedFile⟩ := wellFormed_opened open_
  obtain ⟨reliable, append⟩ := reliable_preappend preappend access openedFile
  have isSet : bf.preappend = true := mode.trans (openedMode.trans preappend)
  have ready :
      { fd with content := old, offset := offset }.Reliable :=
    reliable.of_eq rfl rfl rfl
  rw [bufferedFlush_eq (flawless_of_reliable ready _)
    (by rw [pending, position]), isSet, pending]
  cases flag : flags.has O_APPEND with
  | false =>
      have noAppend :
          { fd with content := old, offset := offset }.append = false :=
        append.trans flag
      simp [content_flushed_preappend noAppend]
  | true =>
      have appending :
          { fd with content := old, offset := offset }.append = true :=
        append.trans flag
      simp only [flushed, nonempty, if_false, if_true,
        content_prepended_append appending, Bool.true_eq_false, false_or]
      by_cases empty : old = []
      · simp [empty]
      · simp only [empty, if_false, iff_false]
        intro equal
        -- the old content is there twice, so the file is too long
        have lengths := congrArg List.length equal
        simp only [List.length_append] at lengths
        have positive := List.length_pos_iff.mpr empty
        omega

/-- A file with the content `[7]`, opened for the two flushes below. -/
theorem exists_opened_seven
    (flags : Flags) (kept : (systemFlags flags).has O_TRUNC = false) :
    ∃ bf fd,
      bufferedOpen (.ample zeroMemory zeroMemory) (some [7]) flags [] =
          some (bf, fd) ∧
        { fd with content := [7], offset := 0 } = fd ∧
        bf.writeBufferPos = 0 ∧ WellFormed bf := by
  obtain ⟨bf, fd, opened⟩ : ∃ bf fd,
      bufferedOpen (.ample zeroMemory zeroMemory) (some [7]) flags [] =
        some (bf, fd) := by
    simp [bufferedOpen, Heap.ample, openFile]
  refine ⟨bf, fd, opened, ?_, ?_, (wellFormed_opened opened).1⟩
  · obtain ⟨-, -, -, -, openedFile⟩ := wellFormed_opened opened
    simp only [openFile, List.headD_nil, reduceCtorEq, if_false, kept,
      Bool.false_eq_true, Option.some.injEq] at openedFile
    rw [← openedFile]
  · simp only [bufferedOpen, Heap.ample, openFile, List.headD_nil,
      reduceCtorEq, if_false, Bool.true_eq_false, Option.some.injEq,
      Prod.mk.injEq] at opened
    rw [← opened.1]

theorem preappend_flush_exact_plain :
    ∃ bf fd,
      bufferedOpen (.ample zeroMemory zeroMemory) (some [7])
          (O_WRONLY ||| O_PREAPPEND) [] = some (bf, fd) ∧
        (bufferedFlush (copyIn bf [1]) fd).2.2.content = [1] ++ [7] := by
  obtain ⟨bf, fd, opened, same, start, wellFormed⟩ :=
    exists_opened_seven (O_WRONLY ||| O_PREAPPEND) (by decide)
  have pending : (copyIn bf [1]).pending = [1] := by
    rw [pending_copyIn wellFormed (by rw [start]; decide),
      pending_eq_nil start, List.nil_append]
  refine ⟨bf, fd, opened, ?_⟩
  rw [← same]
  exact (preappend_flush_exact_iff (.ample zeroMemory zeroMemory) (some [7])
    (O_WRONLY ||| O_PREAPPEND) bf fd [7] [1] 0 (copyIn bf [1])
    (by decide) (by decide) opened rfl (by decide)
    (by simp [copyIn, start]) pending).mpr (Or.inl (by decide))

/--
A file with the content `[7]` opened with `O_APPEND` as well: the flush of
`[1]` leaves `[7, 1, 7]`.
-/
theorem preappend_flush_duplicates_old :
    ∃ bf fd,
      bufferedOpen (.ample zeroMemory zeroMemory) (some [7])
          (O_WRONLY ||| O_APPEND ||| O_PREAPPEND) [] = some (bf, fd) ∧
        (copyIn bf [1]).pending = [1] ∧ fd.content = [7] ∧
        (bufferedFlush (copyIn bf [1]) fd).2.2.content ≠ [1] ++ [7] := by
  obtain ⟨bf, fd, opened, same, start, wellFormed⟩ :=
    exists_opened_seven (O_WRONLY ||| O_APPEND ||| O_PREAPPEND) (by decide)
  have pending : (copyIn bf [1]).pending = [1] := by
    rw [pending_copyIn wellFormed (by rw [start]; decide),
      pending_eq_nil start, List.nil_append]
  obtain ⟨-, -, -, mode, openedFile⟩ := wellFormed_opened opened
  obtain ⟨reliable, append⟩ :=
    reliable_preappend (by decide) (by decide) openedFile
  have content : fd.content = [7] := by rw [← same]
  have isSet : (copyIn bf [1]).preappend = true :=
    mode.trans (by decide)
  have appending : fd.append = true := append.trans (by decide)
  refine ⟨bf, fd, opened, pending, content, ?_⟩
  rw [bufferedFlush_eq (flawless_of_reliable reliable _)
    (by rw [pending]; simp [copyIn, start]), isSet, pending]
  simp only [flushed, List.cons_ne_nil, if_false, if_true]
  rw [content_prepended_append appending, content]
  decide

end OSCourse.BufferedIo
