import OSCourse.BufferedIo.Preappend
import OSCourse.BufferedIo.Read

/-!
# Buffered sessions against direct sessions

The reference for a file opened for reading and writing is the same sequence of
calls issued as direct `read` and `write` calls on one descriptor.  The buffered
layer follows it as long as no byte read ahead is outstanding when something is
written: the write then lands at the kernel offset, which is the position of the
caller.  Otherwise the write lands behind the bytes read ahead.
-/

namespace OSCourse.BufferedIo

open OSCourse.Library.PosixFile
open OSCourse.Library.Chunks
open Flags

/-! ## Direct sessions -/

/-- One call issued directly to the operating system; a flush does nothing. -/
def directCall (fd : OpenFile Byte) : Call → Reply × OpenFile Byte
  | .read count =>
      let (delivered, fd) := fd.read count
      (.bytes delivered, fd)
  | .write data =>
      let (result, fd) := fd.write data
      (.status result, fd)
  | .flush => (.status 0, fd)

/-- A sequence of direct calls. -/
def directCalls : List Call → OpenFile Byte → List Reply × OpenFile Byte
  | [], fd => ([], fd)
  | call :: rest, fd =>
      let (reply, fd) := directCall fd call
      let (replies, fd) := directCalls rest fd
      (reply :: replies, fd)

/-- `open`, the direct calls, `close`. -/
def directSession (file : Option (List Byte)) (flags : Flags)
    (outcomes : List Outcome) (calls : List Call) :
    Option (List Reply × Int × List Byte) :=
  (openFile file flags outcomes).map fun fd =>
    let (replies, fd) := directCalls calls fd
    let (result, fd) := closeFile fd
    (replies, result, fd.content)

/-- The bytes a reply hands to the caller of a read. -/
def Reply.delivery : Reply → Option (Option (List Byte))
  | .bytes delivered => some delivered
  | .status _ => none

/-- What a session shows: the bytes of every read and the final content. -/
def observed (session : List Reply × Int × List Byte) :
    List (Option (List Byte)) × List Byte :=
  (session.1.filterMap Reply.delivery, session.2.2)

/-! ## The relation between the two runs -/

/--
The buffered state follows the direct one.  `base` is the position at which the
reads since the last write began.
-/
structure Follows (base : Nat) (bf : BufferedFile) (fd : OpenFile Byte)
    (direct : OpenFile Byte) : Prop where
  wellFormed : WellFormed bf
  normal : bf.preappend = false
  reliable : fd.Reliable
  noAppend : fd.append = false
  directReliable : direct.Reliable
  directNoAppend : direct.append = false
  inside : fd.offset ≤ fd.content.length
  content : direct.content = overwrite fd.content fd.offset bf.pending
  position : direct.offset + bf.leftover.length =
    fd.offset + bf.pending.length
  started : base ≤ direct.offset
  reading : bf.pending = [] →
    stream bf fd = direct.content.drop direct.offset ∧ Window base bf fd
  writing : bf.pending ≠ [] → bf.leftover = [] ∧ base = direct.offset

theorem Follows.length_content
    {base : Nat} {bf : BufferedFile} {fd direct : OpenFile Byte}
    (follows : Follows base bf fd direct) :
    direct.content.length =
      max fd.content.length (fd.offset + bf.pending.length) := by
  rw [follows.content, length_overwrite follows.inside]

theorem Follows.offset_le
    {base : Nat} {bf : BufferedFile} {fd direct : OpenFile Byte}
    (follows : Follows base bf fd direct) :
    direct.offset ≤ direct.content.length := by
  have length := follows.length_content
  have position := follows.position
  omega

theorem store_content
    {fd : OpenFile Byte} (noAppend : fd.append = false)
    (data : List Byte) :
    (fd.store data).content = overwrite fd.content fd.offset data := by
  simp [OpenFile.store, OpenFile.writePosition, noAppend]

theorem store_offset
    {fd : OpenFile Byte} (noAppend : fd.append = false)
    (data : List Byte) :
    (fd.store data).offset = fd.offset + data.length := by
  simp [OpenFile.store, OpenFile.writePosition, noAppend]

/-- In normal mode a flush stores the data at the kernel offset. -/
theorem flushed_normal
    {fd : OpenFile Byte} (noAppend : fd.append = false)
    (inside : fd.offset ≤ fd.content.length) (data : List Byte) :
    flushed false fd data = fd.store data := by
  by_cases empty : data = []
  · subst empty
    cases fd
    simp_all [flushed, OpenFile.store, OpenFile.writePosition, overwrite_nil]
  · simp [flushed, empty]

/-- Flushing what is pending keeps the relation. -/
theorem Follows.flush
    {base : Nat} {bf : BufferedFile} {fd direct : OpenFile Byte}
    (follows : Follows base bf fd direct) :
    Follows base { bf with writeBufferPos := 0 }
      (flushed bf.preappend fd bf.pending) direct := by
  have wellFormed := follows.wellFormed
  have noPending : { bf with writeBufferPos := 0 }.pending = [] :=
    pending_eq_nil rfl
  have fileEq : flushed bf.preappend fd bf.pending = fd.store bf.pending := by
    rw [follows.normal, flushed_normal follows.noAppend follows.inside]
  have contentEq : (fd.store bf.pending).content = direct.content := by
    rw [store_content follows.noAppend, follows.content]
  have offsetEq := store_offset follows.noAppend bf.pending
  have length := follows.length_content
  have position := follows.position
  rw [fileEq]
  have inside : (fd.store bf.pending).offset ≤
      (fd.store bf.pending).content.length := by
    rw [contentEq, offsetEq]
    omega
  refine ⟨⟨wellFormed.writeLength, wellFormed.writeSize, bufferSize_pos,
      wellFormed.readLength, wellFormed.readSize, wellFormed.readPos⟩,
    follows.normal, follows.reliable.store _, follows.noAppend,
    follows.directReliable, follows.directNoAppend, inside, ?_, ?_,
    follows.started, ?_, ?_⟩
  · rw [noPending, overwrite_nil inside, contentEq]
  · rw [noPending, offsetEq]
    exact position
  · intro _
    by_cases empty : bf.pending = []
    · have unchanged : fd.store bf.pending = fd := by
        rw [← fileEq, flushed, if_pos empty]
      rw [unchanged]
      exact follows.reading empty
    · obtain ⟨exhausted, baseEq⟩ := follows.writing empty
      rw [exhausted, List.length_nil, Nat.add_zero] at position
      refine ⟨?_, 0, ?_, ?_⟩
      · change bf.leftover ++ _ = _
        rw [exhausted, List.nil_append, contentEq, offsetEq, position]
      · rw [contentEq, offsetEq, ← position, baseEq, Nat.zero_mul]
        exact (Nat.min_eq_right follows.offset_le).symm
      · intro remaining
        exact absurd exhausted remaining
  · intro nonempty
    exact absurd noPending nonempty

/-- A read delivers the same bytes in both runs and keeps the relation. -/
theorem Follows.read
    {base : Nat} {bf : BufferedFile} {fd direct : OpenFile Byte}
    (follows : Follows base bf fd direct) (count : Nat) :
    ∃ bf' fd',
      bufferedCall bf fd (.read count) =
          some ((directCall direct (.read count)).1, bf', fd') ∧
        Follows base bf' fd' (directCall direct (.read count)).2 := by
  obtain ⟨bf', fd', result, done⟩ :=
    bufferedRead_eq follows.wellFormed follows.reliable count
  have flush := follows.flush
  obtain ⟨streamEq, window⟩ := flush.reading (pending_eq_nil rfl)
  generalize flushed bf.preappend fd bf.pending = fd₁ at *
  generalize start : { bf with writeBufferPos := 0 } = bf₁ at *
  have sameStream : stream bf fd₁ = stream bf₁ fd₁ := by
    subst start
    rfl
  have noPending : bf'.pending = [] := by
    apply pending_eq_nil
    rw [done.writeBufferPos, ← start]
  have fileContent : fd₁.content = direct.content := by
    have content := flush.content
    rw [pending_eq_nil (by rw [← start]), overwrite_nil flush.inside]
      at content
    exact content.symm
  obtain ⟨offset, fileEq⟩ := done.file
  have inside : fd'.offset ≤ direct.content.length := by
    rw [← fileContent]
    exact done.inside flush.inside
  have content' : fd'.content = direct.content := by
    rw [fileEq]
    exact fileContent
  have directRead := follows.directReliable.read_eq count
  have atEnd := follows.offset_le
  have taken : ((direct.content.drop direct.offset).take count).length =
      min count (direct.content.length - direct.offset) := by
    rw [List.length_take, List.length_drop]
  have rest : stream bf' fd' = direct.content.drop
      (direct.offset +
        ((direct.content.drop direct.offset).take count).length) := by
    rw [done.stream, streamEq, List.drop_drop, taken]
    rcases Nat.le_total count (direct.content.length - direct.offset) with
      within | beyond
    · rw [Nat.min_eq_left within]
    · rw [Nat.min_eq_right beyond, List.drop_eq_nil_of_le (by omega),
        List.drop_eq_nil_of_le (by omega)]
  have lengths := congrArg List.length rest
  simp only [stream, List.length_append, List.length_drop, content']
    at lengths
  refine ⟨bf', fd', ?_, ?_⟩
  · rw [bufferedCall, result, directCall, directRead, sameStream, streamEq]
    rfl
  · rw [directCall, directRead]
    refine ⟨done.wellFormed, ?_, done.reliable flush.reliable, ?_,
      follows.directReliable.seek _, follows.directNoAppend, ?_, ?_, ?_, ?_,
      ?_, ?_⟩
    · rw [done.preappend, flush.normal]
    · rw [fileEq]
      exact flush.noAppend
    · rw [content']
      exact inside
    · rw [noPending, overwrite_nil (by rw [content']; exact inside)]
      exact content'.symm
    · rw [noPending, List.length_nil, Nat.add_zero]
      dsimp only
      rw [taken] at lengths ⊢
      omega
    · exact follows.started.trans (Nat.le_add_right _ _)
    · intro _
      exact ⟨rest, done.window base window⟩
    · intro nonempty
      exact absurd noPending nonempty

/-! ## Writing with nothing read ahead -/

theorem flushChunks_normal
    (chunks : List (List Byte)) {fd : OpenFile Byte}
    (noAppend : fd.append = false)
    (inside : fd.offset ≤ fd.content.length) :
    chunks.foldl (flushed false) fd = fd.store chunks.flatten := by
  induction chunks generalizing fd with
  | nil =>
      rw [List.foldl_nil, List.flatten_nil,
        ← flushed_normal noAppend inside, flushed, if_pos rfl]
  | cons chunk rest ih =>
      have inside' : (fd.store chunk).offset ≤
          (fd.store chunk).content.length := by
        rw [store_offset noAppend, store_content noAppend,
          length_overwrite inside]
        omega
      rw [List.foldl_cons, flushed_normal noAppend inside,
        ih (show (fd.store chunk).append = false from noAppend) inside',
        List.flatten_cons]
      simp [OpenFile.store, OpenFile.writePosition, noAppend,
        overwrite_overwrite inside, Nat.add_assoc]

/-- A write with nothing read ahead keeps the relation. -/
theorem Follows.write
    {base : Nat} {bf : BufferedFile} {fd direct : OpenFile Byte}
    (follows : Follows base bf fd direct) (exhausted : bf.leftover = [])
    (data : List Byte) :
    ∃ bf' fd',
      bufferedCall bf fd (.write data) =
          some ((directCall direct (.write data)).1, bf', fd') ∧
        Follows (direct.offset + data.length) bf' fd'
          (directCall direct (.write data)).2 := by
  obtain ⟨bf', fd', result, written⟩ :=
    bufferedWrite_eq follows.wellFormed
      (flawless_of_reliable follows.reliable _) data
  have position := follows.position
  rw [exhausted, List.length_nil, Nat.add_zero] at position
  have leftover' : bf'.leftover = [] := by
    rw [BufferedFile.leftover, written.readBuffer, written.readBufferSize,
      written.readBufferPos]
    exact exhausted
  have whole :=
    flatten_fullChunks_append_lastChunk BUFFER_SIZE (bf.pending ++ data)
  generalize chunksEq :
    fullChunks BUFFER_SIZE (bf.pending ++ data) = chunks at whole
  have fileEq : fd' = fd.store chunks.flatten := by
    rw [written.file, follows.normal, flushChunks, chunksEq,
      flushChunks_normal chunks follows.noAppend follows.inside]
  have pendingEq := written.pending
  generalize lastChunk BUFFER_SIZE (bf.pending ++ data) = last
    at whole pendingEq
  have lengths := congrArg List.length whole
  simp only [List.length_append] at lengths
  have contentStored := store_content follows.noAppend chunks.flatten
  have offsetStored := store_offset follows.noAppend chunks.flatten
  have inside' : fd'.offset ≤ fd'.content.length := by
    rw [fileEq, contentStored, offsetStored, length_overwrite follows.inside]
    omega
  have directWrite := follows.directReliable.write_eq data
  have directContent := store_content follows.directNoAppend data
  have directOffset := store_offset follows.directNoAppend data
  have contentEq : (direct.store data).content =
      overwrite fd'.content fd'.offset bf'.pending := by
    rw [directContent, follows.content, position,
      overwrite_overwrite follows.inside, fileEq, contentStored, offsetStored,
      pendingEq, overwrite_overwrite follows.inside, whole]
  refine ⟨bf', fd', ?_, ?_⟩
  · rw [bufferedCall, result, directCall, directWrite]
    rfl
  · rw [directCall, directWrite]
    refine ⟨written.wellFormed, written.preappend.trans follows.normal, ?_,
      ?_, follows.directReliable.store data, follows.directNoAppend, inside',
      contentEq, ?_, ?_, ?_, ?_⟩
    · rw [fileEq]
      exact follows.reliable.store _
    · rw [fileEq]
      exact follows.noAppend
    · rw [leftover', directOffset, pendingEq, fileEq, offsetStored,
        List.length_nil]
      omega
    · rw [directOffset]
    · intro noPending
      rw [pendingEq] at noPending
      subst noPending
      rw [pendingEq, overwrite_nil inside'] at contentEq
      have offset' : fd'.offset = direct.offset + data.length := by
        rw [fileEq, offsetStored, position]
        simp only [List.length_nil] at lengths
        omega
      dsimp only
      refine ⟨?_, 0, ?_, ?_⟩
      · rw [stream, leftover', List.nil_append, contentEq, offset',
          directOffset]
      · rw [offset', Nat.zero_mul, Nat.add_zero]
        omega
      · intro remaining
        exact absurd leftover' remaining
    · intro _
      exact ⟨leftover', directOffset.symm⟩

/-- A write of no bytes changes nothing. -/
theorem Follows.write_nil
    {base : Nat} {bf : BufferedFile} {fd direct : OpenFile Byte}
    (follows : Follows base bf fd direct) :
    bufferedCall bf fd (.write []) =
        some ((directCall direct (.write [])).1, bf, fd) ∧
      (directCall direct (.write [])).2 = direct := by
  constructor
  · rw [directCall, follows.directReliable.write_eq]
    simp [bufferedCall, bufferedWrite, bufferedWriteLoop]
  · rw [directCall, follows.directReliable.write_eq]
    dsimp only
    rw [← flushed_normal follows.directNoAppend follows.offset_le, flushed,
      if_pos rfl]

/-- A flush answers `0` in both runs. -/
theorem Follows.flush_call
    {base : Nat} {bf : BufferedFile} {fd direct : OpenFile Byte}
    (follows : Follows base bf fd direct) :
    bufferedCall bf fd .flush =
      some ((directCall direct .flush).1, { bf with writeBufferPos := 0 },
        flushed bf.preappend fd bf.pending) := by
  rw [bufferedCall,
    bufferedFlush_eq (flawless_of_reliable follows.reliable _)
      follows.wellFormed.length_pending]
  rfl

/-! ## When nothing is read ahead -/

/--
Nothing is read ahead exactly when the position is the end of the file or a
whole number of buffers behind the place where reading began.
-/
theorem Follows.exhausted_iff
    {base : Nat} {bf : BufferedFile} {fd direct : OpenFile Byte}
    (follows : Follows base bf fd direct) :
    bf.leftover = [] ↔
      direct.offset = direct.content.length ∨
        (direct.offset - base) % BUFFER_SIZE = 0 := by
  have position := follows.position
  have started := follows.started
  by_cases noPending : bf.pending = []
  · obtain ⟨-, refills, offset, late⟩ := follows.reading noPending
    have content : direct.content = fd.content := by
      rw [follows.content, noPending, overwrite_nil follows.inside]
    rw [noPending, List.length_nil, Nat.add_zero] at position
    rw [content]
    constructor
    · intro exhausted
      rw [exhausted, List.length_nil, Nat.add_zero] at position
      rcases Nat.le_total fd.content.length
          (base + refills * BUFFER_SIZE) with atEnd | inside
      · left
        omega
      · right
        have whole : direct.offset - base = refills * BUFFER_SIZE := by
          omega
        rw [whole, Nat.mul_mod_left]
    · intro aligned
      by_contra remaining
      have bound := late remaining
      have positive := List.length_pos_iff.mpr remaining
      rcases aligned with atEnd | whole
      · omega
      · have divides : BUFFER_SIZE ∣
            refills * BUFFER_SIZE - (direct.offset - base) :=
          Nat.dvd_sub (Nat.dvd_mul_left _ _)
            (Nat.dvd_of_mod_eq_zero whole)
        have tooSmall := Nat.le_of_dvd (by omega) divides
        omega
  · obtain ⟨exhausted, baseEq⟩ := follows.writing noPending
    simp [exhausted, baseEq]

/-! ## Shapes of sessions -/

/-- A call with the bytes it writes forgotten. -/
inductive CallShape where
  | read (count : Nat)
  | write (length : Nat)
  | flush
deriving DecidableEq, Repr

/-- The shape of a call. -/
def Call.shape : Call → CallShape
  | .read count => .read count
  | .write data => .write data.length
  | .flush => .flush

/--
Every non-empty write of a session comes at the end of the file or a whole
number of buffers behind the previous write (the start of the file when there
was none).  `length` is the length of the file, `position` the position of the
caller and `base` the end of the previous write.
-/
def Aligned : Nat → Nat → Nat → List CallShape → Prop
  | _, _, _, [] => True
  | length, position, base, .read count :: rest =>
      Aligned length (position + min count (length - position)) base rest
  | length, position, base, .write 0 :: rest =>
      Aligned length position base rest
  | length, position, base, .write (count + 1) :: rest =>
      (position = length ∨ (position - base) % BUFFER_SIZE = 0) ∧
        Aligned (max length (position + (count + 1)))
          (position + (count + 1)) (position + (count + 1)) rest
  | length, position, base, .flush :: rest =>
      Aligned length position base rest

theorem directRead_position
    {direct : OpenFile Byte} (reliable : direct.Reliable) (count : Nat) :
    (directCall direct (.read count)).2.content = direct.content ∧
      (directCall direct (.read count)).2.offset = direct.offset +
        min count (direct.content.length - direct.offset) := by
  rw [directCall, reliable.read_eq]
  simp

theorem directWrite_position
    {direct : OpenFile Byte} (reliable : direct.Reliable)
    (noAppend : direct.append = false)
    (inside : direct.offset ≤ direct.content.length) (data : List Byte) :
    (directCall direct (.write data)).2.content =
        overwrite direct.content direct.offset data ∧
      (directCall direct (.write data)).2.content.length =
        max direct.content.length (direct.offset + data.length) ∧
      (directCall direct (.write data)).2.offset =
        direct.offset + data.length := by
  rw [directCall, reliable.write_eq]
  dsimp only
  rw [store_content noAppend, store_offset noAppend, length_overwrite inside]
  exact ⟨rfl, rfl, rfl⟩

theorem directCalls_cons (call : Call) (rest : List Call)
    (fd : OpenFile Byte) :
    directCalls (call :: rest) fd =
      ((directCall fd call).1 ::
          (directCalls rest (directCall fd call).2).1,
        (directCalls rest (directCall fd call).2).2) :=
  rfl

theorem bufferedCalls_cons
    {call : Call} {rest : List Call} {bf bf' : BufferedFile}
    {fd fd' : OpenFile Byte} {reply : Reply}
    (step : bufferedCall bf fd call = some (reply, bf', fd')) :
    bufferedCalls (call :: rest) bf fd =
      (bufferedCalls rest bf' fd').map fun (replies, state) =>
        (reply :: replies, state) := by
  rw [bufferedCalls, step]

/-- An aligned session answers as the direct one and ends related to it. -/
theorem bufferedCalls_of_aligned
    (calls : List Call) {base : Nat} {bf : BufferedFile}
    {fd direct : OpenFile Byte}
    (follows : Follows base bf fd direct)
    (aligned :
      Aligned direct.content.length direct.offset base
        (calls.map Call.shape)) :
    ∃ base' bf' fd',
      bufferedCalls calls bf fd =
          some ((directCalls calls direct).1, bf', fd') ∧
        Follows base' bf' fd' (directCalls calls direct).2 := by
  induction calls generalizing base bf fd direct with
  | nil => exact ⟨base, bf, fd, rfl, follows⟩
  | cons call rest ih =>
      rw [directCalls_cons]
      cases call with
      | read count =>
          obtain ⟨bf₁, fd₁, step, follows₁⟩ := follows.read count
          obtain ⟨contentEq, offsetEq⟩ :=
            directRead_position follows.directReliable count
          obtain ⟨base', bf', fd', result, final⟩ := ih follows₁ (by
            rw [contentEq, offsetEq]
            exact aligned)
          refine ⟨base', bf', fd', ?_, final⟩
          rw [bufferedCalls_cons step, result]
          rfl
      | write data =>
          cases data with
          | nil =>
              obtain ⟨step, same⟩ := follows.write_nil
              rw [same]
              obtain ⟨base', bf', fd', result, final⟩ := ih follows aligned
              refine ⟨base', bf', fd', ?_, final⟩
              rw [bufferedCalls_cons step, result]
              rfl
          | cons byte bytes =>
              obtain ⟨here, later⟩ := aligned
              obtain ⟨bf₁, fd₁, step, follows₁⟩ :=
                follows.write (follows.exhausted_iff.mpr here)
                  (byte :: bytes)
              obtain ⟨-, lengthEq, offsetEq⟩ :=
                directWrite_position follows.directReliable
                  follows.directNoAppend follows.offset_le (byte :: bytes)
              obtain ⟨base', bf', fd', result, final⟩ := ih follows₁ (by
                rw [lengthEq, offsetEq]
                exact later)
              refine ⟨base', bf', fd', ?_, final⟩
              rw [bufferedCalls_cons step, result]
              rfl
      | flush =>
          obtain ⟨base', bf', fd', result, final⟩ :=
            ih follows.flush aligned
          refine ⟨base', bf', fd', ?_, final⟩
          rw [bufferedCalls_cons follows.flush_call, result]
          rfl

end OSCourse.BufferedIo
