import OSCourse.BufferedIo.Transparency

/-!
# The sessions the buffered layer gets right

A session is transparent for all bytes it may carry exactly when it is
`Aligned`.  For the other direction the file holds zeros and every write stores
ones.  The first write that is not aligned leaves the byte at the position of
the caller alone in the buffered run, since its data goes behind the bytes read
ahead, and neither run ever returns to that position.
-/

namespace OSCourse.BufferedIo

open OSCourse.Library.PosixFile
open Flags

/-! ## Bytes that stay behind -/

/-- The file offset has passed `position`, which holds `byte`. -/
structure Passed (position : Nat) (byte : Byte) (fd : OpenFile Byte) :
    Prop where
  reliable : fd.Reliable
  noAppend : fd.append = false
  inside : fd.offset ≤ fd.content.length
  behind : position < fd.offset
  holds : fd.content[position]? = some byte

theorem Passed.store
    {position : Nat} {byte : Byte} {fd : OpenFile Byte}
    (passed : Passed position byte fd) (data : List Byte) :
    Passed position byte (fd.store data) := by
  have contentEq := store_content passed.noAppend data
  have offsetEq := store_offset passed.noAppend data
  refine ⟨passed.reliable.store data, passed.noAppend, ?_, ?_, ?_⟩
  · rw [contentEq, offsetEq, length_overwrite passed.inside]
    omega
  · rw [offsetEq]
    exact passed.behind.trans_le (Nat.le_add_right _ _)
  · rw [contentEq, getElem?_overwrite_of_lt passed.inside passed.behind]
    exact passed.holds

theorem Passed.seek
    {position : Nat} {byte : Byte} {fd : OpenFile Byte}
    (passed : Passed position byte fd) {offset : Nat}
    (forward : fd.offset ≤ offset) (inside : offset ≤ fd.content.length) :
    Passed position byte { fd with offset := offset } :=
  ⟨passed.reliable.seek offset, passed.noAppend, inside,
    passed.behind.trans_le forward, passed.holds⟩

theorem Passed.flushed
    {position : Nat} {byte : Byte} {fd : OpenFile Byte}
    (passed : Passed position byte fd) (data : List Byte) :
    Passed position byte (flushed false fd data) := by
  rw [flushed_normal passed.noAppend passed.inside]
  exact passed.store data

theorem Passed.flushChunks
    {position : Nat} {byte : Byte} {fd : OpenFile Byte}
    (passed : Passed position byte fd) (data : List Byte) :
    Passed position byte (flushChunks false fd data) := by
  rw [BufferedIo.flushChunks,
    flushChunks_normal _ passed.noAppend passed.inside]
  exact passed.store _

/-- No direct call comes back to a position it has passed. -/
theorem Passed.directCall
    {position : Nat} {byte : Byte} {fd : OpenFile Byte}
    (passed : Passed position byte fd) (call : Call) :
    Passed position byte (directCall fd call).2 := by
  cases call with
  | read count =>
      rw [BufferedIo.directCall, passed.reliable.read_eq]
      have inside := passed.inside
      apply passed.seek (Nat.le_add_right _ _)
      rw [List.length_take, List.length_drop]
      omega
  | write data =>
      rw [BufferedIo.directCall, passed.reliable.write_eq]
      exact passed.store data
  | flush => exact passed

theorem Passed.directCalls
    {position : Nat} {byte : Byte} {fd : OpenFile Byte}
    (passed : Passed position byte fd) (calls : List Call) :
    Passed position byte (directCalls calls fd).2 := by
  induction calls generalizing fd with
  | nil => exact passed
  | cons call rest ih =>
      rw [directCalls_cons]
      exact ih (passed.directCall call)

/-- No buffered call comes back to a position the kernel offset has passed. -/
theorem Passed.bufferedCall
    {position : Nat} {byte : Byte} {bf bf' : BufferedFile}
    {fd fd' : OpenFile Byte} {reply : Reply} {call : Call}
    (passed : Passed position byte fd) (wellFormed : WellFormed bf)
    (normal : bf.preappend = false)
    (step : bufferedCall bf fd call = some (reply, bf', fd')) :
    Passed position byte fd' ∧ WellFormed bf' ∧ bf'.preappend = false := by
  cases call with
  | read count =>
      obtain ⟨bf₁, fd₁, result, done⟩ :=
        bufferedRead_eq wellFormed passed.reliable count
      rw [BufferedIo.bufferedCall, result] at step
      simp only [Option.map_some, Option.some.injEq, Prod.mk.injEq] at step
      obtain ⟨-, rfl, rfl⟩ := step
      have flush := passed.flushed bf.pending
      rw [normal] at done
      obtain ⟨offset, rfl⟩ := done.file
      exact ⟨flush.seek done.forward (done.inside flush.inside),
        done.wellFormed, done.preappend⟩
  | write data =>
      obtain ⟨bf₁, fd₁, result, written⟩ :=
        bufferedWrite_eq wellFormed
          (flawless_of_reliable passed.reliable _) data
      rw [BufferedIo.bufferedCall, result] at step
      simp only [Option.map_some, Option.some.injEq, Prod.mk.injEq] at step
      obtain ⟨-, rfl, rfl⟩ := step
      refine ⟨?_, written.wellFormed, written.preappend.trans normal⟩
      rw [written.file, normal]
      exact passed.flushChunks _
  | flush =>
      rw [BufferedIo.bufferedCall,
        bufferedFlush_eq (flawless_of_reliable passed.reliable _)
          wellFormed.length_pending] at step
      simp only [Option.some.injEq, Prod.mk.injEq] at step
      obtain ⟨-, rfl, rfl⟩ := step
      rw [normal]
      exact ⟨passed.flushed _,
        ⟨wellFormed.writeLength, wellFormed.writeSize, bufferSize_pos,
          wellFormed.readLength, wellFormed.readSize, wellFormed.readPos⟩,
        rfl⟩

theorem Passed.bufferedCalls
    {position : Nat} {byte : Byte} (calls : List Call)
    {bf bf' : BufferedFile} {fd fd' : OpenFile Byte} {replies : List Reply}
    (passed : Passed position byte fd) (wellFormed : WellFormed bf)
    (normal : bf.preappend = false)
    (run : bufferedCalls calls bf fd = some (replies, bf', fd')) :
    Passed position byte fd' ∧ WellFormed bf' ∧ bf'.preappend = false := by
  induction calls generalizing bf fd replies with
  | nil =>
      simp only [BufferedIo.bufferedCalls, Option.some.injEq,
        Prod.mk.injEq] at run
      obtain ⟨-, rfl, rfl⟩ := run
      exact ⟨passed, wellFormed, normal⟩
  | cons call rest ih =>
      rw [BufferedIo.bufferedCalls] at run
      split at run
      · contradiction
      · rename_i reply bf₁ fd₁ step
        obtain ⟨⟨later, bf₂, fd₂⟩, runRest, equal⟩ :=
          Option.map_eq_some_iff.mp run
        simp only [Prod.mk.injEq] at equal
        obtain ⟨-, rfl, rfl⟩ := equal
        obtain ⟨passed₁, wellFormed₁, normal₁⟩ :=
          passed.bufferedCall wellFormed normal step
        exact ih passed₁ wellFormed₁ normal₁ runRest

/-- The final content of a buffered run keeps a byte that was passed. -/
theorem Passed.closed
    {position : Nat} {byte : Byte} {bf : BufferedFile} {fd : OpenFile Byte}
    (passed : Passed position byte fd) (wellFormed : WellFormed bf)
    (normal : bf.preappend = false) :
    (bufferedClose bf fd).2.content[position]? = some byte := by
  rw [bufferedClose_eq wellFormed
    (flawless_of_reliable passed.reliable _), normal]
  exact (passed.flushed bf.pending).holds

/-! ## Zeros in the file, ones in the writes -/

/-- A call of the given shape that writes ones. -/
def CallShape.ones : CallShape → Call
  | .read count => .read count
  | .write length => .write (List.replicate length 1)
  | .flush => .flush

theorem CallShape.shape_ones (shape : CallShape) :
    shape.ones.shape = shape := by
  cases shape <;> simp [CallShape.ones, Call.shape]

theorem CallShape.map_shape_ones (shapes : List CallShape) :
    (shapes.map CallShape.ones).map Call.shape = shapes := by
  simp [Function.comp_def, CallShape.shape_ones]

/-- The file holds zeros from its offset on. -/
def ZerosAhead (fd : OpenFile Byte) : Prop :=
  ∀ byte ∈ fd.content.drop fd.offset, byte = 0

theorem ZerosAhead.of_drop
    {fd fd' : OpenFile Byte} (zeros : ZerosAhead fd) (count : Nat)
    (rest : fd'.content.drop fd'.offset =
      (fd.content.drop fd.offset).drop count) :
    ZerosAhead fd' := by
  intro byte member
  rw [rest] at member
  exact zeros byte (List.mem_of_mem_drop member)

theorem ZerosAhead.directRead
    {direct : OpenFile Byte} (zeros : ZerosAhead direct)
    (reliable : direct.Reliable) (count : Nat) :
    ZerosAhead (directCall direct (.read count)).2 := by
  obtain ⟨contentEq, offsetEq⟩ := directRead_position reliable count
  apply zeros.of_drop (min count (direct.content.length - direct.offset))
  rw [contentEq, offsetEq, List.drop_drop]

theorem ZerosAhead.directWrite
    {base : Nat} {bf : BufferedFile} {fd direct : OpenFile Byte}
    (zeros : ZerosAhead direct) (follows : Follows base bf fd direct)
    (data : List Byte) :
    ZerosAhead (directCall direct (.write data)).2 := by
  obtain ⟨contentEq, -, offsetEq⟩ :=
    directWrite_position follows.directReliable follows.directNoAppend
      follows.offset_le data
  apply zeros.of_drop data.length
  rw [contentEq, offsetEq, drop_overwrite follows.offset_le, List.drop_drop]

/-- A write that is not aligned leaves the caller's position alone. -/
theorem Follows.passed_of_ahead
    {base : Nat} {bf : BufferedFile} {fd direct : OpenFile Byte}
    (follows : Follows base bf fd direct) (zeros : ZerosAhead direct)
    (ahead : bf.leftover ≠ []) :
    Passed direct.offset 0 fd := by
  have noPending : bf.pending = [] := by
    by_contra pending
    exact ahead (follows.writing pending).1
  have contentEq : direct.content = fd.content := by
    rw [follows.content, noPending, overwrite_nil follows.inside]
  have position := follows.position
  have inside := follows.inside
  rw [noPending, List.length_nil, Nat.add_zero] at position
  have positive := List.length_pos_iff.mpr ahead
  have bound : direct.offset < direct.content.length := by
    rw [contentEq]
    omega
  refine ⟨follows.reliable, follows.noAppend, follows.inside, by omega, ?_⟩
  have member : direct.content[direct.offset] ∈
      direct.content.drop direct.offset := by
    rw [List.drop_eq_getElem_cons bound]
    exact List.mem_cons_self
  rw [← contentEq, List.getElem?_eq_getElem bound, zeros _ member]

theorem passed_of_directWrite
    {base : Nat} {bf : BufferedFile} {fd direct : OpenFile Byte}
    (follows : Follows base bf fd direct) (count : Nat) :
    Passed direct.offset 1
      (directCall direct (.write (List.replicate (count + 1) 1))).2 := by
  obtain ⟨contentEq, lengthEq, offsetEq⟩ :=
    directWrite_position follows.directReliable follows.directNoAppend
      follows.offset_le (List.replicate (count + 1) 1)
  rw [List.length_replicate] at lengthEq offsetEq
  have reliable : (directCall direct
      (.write (List.replicate (count + 1) 1))).2.Reliable := by
    rw [directCall, follows.directReliable.write_eq]
    exact follows.directReliable.store _
  have noAppend : (directCall direct
      (.write (List.replicate (count + 1) 1))).2.append = false := by
    rw [directCall, follows.directReliable.write_eq]
    exact follows.directNoAppend
  have stored := getElem?_overwrite_of_mem follows.offset_le
    (List.replicate (count + 1) (1 : Byte)) 0 (by simp)
  refine ⟨reliable, noAppend, by omega, by omega, ?_⟩
  rw [contentEq]
  simpa using stored

/-- A session that is not aligned ends with different contents. -/
theorem contents_differ_of_not_aligned
    (shapes : List CallShape) {base : Nat} {bf bf' : BufferedFile}
    {fd fd' direct : OpenFile Byte} {replies : List Reply}
    (follows : Follows base bf fd direct) (zeros : ZerosAhead direct)
    (misaligned :
      ¬ Aligned direct.content.length direct.offset base shapes)
    (run : bufferedCalls (shapes.map CallShape.ones) bf fd =
      some (replies, bf', fd')) :
    (bufferedClose bf' fd').2.content ≠
      (directCalls (shapes.map CallShape.ones) direct).2.content := by
  induction shapes generalizing base bf fd direct replies with
  | nil => exact absurd trivial misaligned
  | cons shape rest ih =>
      rw [List.map_cons, directCalls_cons]
      rw [List.map_cons] at run
      have follow :
          ∀ {base₁ : Nat} {bf₁ : BufferedFile} {fd₁ : OpenFile Byte}
            {reply : Reply},
            bufferedCall bf fd shape.ones = some (reply, bf₁, fd₁) →
            Follows base₁ bf₁ fd₁ (directCall direct shape.ones).2 →
            ZerosAhead (directCall direct shape.ones).2 →
            ¬ Aligned (directCall direct shape.ones).2.content.length
              (directCall direct shape.ones).2.offset base₁ rest →
            (bufferedClose bf' fd').2.content ≠
              (directCalls (rest.map CallShape.ones)
                (directCall direct shape.ones).2).2.content := by
        intro base₁ bf₁ fd₁ reply step follows₁ zeros₁ misaligned₁
        rw [bufferedCalls_cons step] at run
        obtain ⟨⟨later, bf₂, fd₂⟩, runRest, equal⟩ :=
          Option.map_eq_some_iff.mp run
        simp only [Prod.mk.injEq] at equal
        obtain ⟨-, rfl, rfl⟩ := equal
        exact ih follows₁ zeros₁ misaligned₁ runRest
      cases shape with
      | read count =>
          obtain ⟨bf₁, fd₁, step, follows₁⟩ := follows.read count
          obtain ⟨contentEq, offsetEq⟩ :=
            directRead_position follows.directReliable count
          refine follow step follows₁
            (zeros.directRead follows.directReliable count) ?_
          rw [CallShape.ones, contentEq, offsetEq]
          exact misaligned
      | flush =>
          exact follow follows.flush_call follows.flush zeros misaligned
      | write length =>
          cases length with
          | zero =>
              obtain ⟨step, same⟩ := follows.write_nil
              have sameOnes : (directCall direct
                  (CallShape.ones (.write 0))).2 = direct := same
              refine follow step (by rw [sameOnes]; exact follows)
                (by rw [sameOnes]; exact zeros) ?_
              rw [sameOnes]
              exact misaligned
          | succ count =>
              by_cases ahead : bf.leftover = []
              · obtain ⟨bf₁, fd₁, step, follows₁⟩ :=
                  follows.write ahead (List.replicate (count + 1) 1)
                obtain ⟨-, lengthEq, offsetEq⟩ :=
                  directWrite_position follows.directReliable
                    follows.directNoAppend follows.offset_le
                    (List.replicate (count + 1) 1)
                refine follow step follows₁
                  (zeros.directWrite follows _) ?_
                rw [CallShape.ones, lengthEq, offsetEq,
                  List.length_replicate]
                intro later
                exact misaligned ⟨follows.exhausted_iff.mp ahead, later⟩
              · have buffered :=
                  (follows.passed_of_ahead zeros ahead).bufferedCalls _
                    follows.wellFormed follows.normal run
                have kept := buffered.1.closed buffered.2.1 buffered.2.2
                have passed := passed_of_directWrite follows count
                have stored :=
                  (passed.directCalls (rest.map CallShape.ones)).holds
                intro equal
                rw [equal] at kept
                rw [CallShape.ones, stored] at kept
                exact absurd kept (by decide)

/-! ## Whole sessions -/

theorem follows_opened
    {bf : BufferedFile} {fd : OpenFile Byte}
    (wellFormed : WellFormed bf) (noPending : bf.pending = [])
    (noLeftover : bf.leftover = []) (normal : bf.preappend = false)
    (reliable : fd.Reliable) (noAppend : fd.append = false)
    (atStart : fd.offset = 0) :
    Follows 0 bf fd fd := by
  have inside : fd.offset ≤ fd.content.length := by omega
  refine ⟨wellFormed, normal, reliable, noAppend, reliable, noAppend, inside,
    ?_, ?_, Nat.zero_le _, ?_, ?_⟩
  · rw [noPending, overwrite_nil inside]
  · rw [noPending, noLeftover]
  · intro _
    refine ⟨?_, 0, by omega, ?_⟩
    · rw [stream, noLeftover, List.nil_append]
    · intro remaining
      exact absurd noLeftover remaining
  · intro pending
    exact absurd noPending pending

/-- A file opened for both accesses, neither appending nor preappending. -/
structure PlainFlags (flags : Flags) : Prop where
  access : flags.accmode = O_RDWR
  noPreappend : flags.has O_PREAPPEND = false
  noAppend : flags.has O_APPEND = false

theorem PlainFlags.systemFlags_eq
    {flags : Flags} (plain : PlainFlags flags) :
    systemFlags flags = flags := by
  simp [systemFlags, plain.noPreappend]

/-- Both sessions start from related states. -/
theorem PlainFlags.opened
    {flags : Flags} (plain : PlainFlags flags)
    (readMem writeMem : Fin BUFFER_SIZE → Byte)
    {file : Option (List Byte)} {fd : OpenFile Byte}
    (opened : openFile file flags [] = some fd) :
    ∃ bf,
      bufferedOpen (.ample readMem writeMem) file flags [] =
          some (bf, fd) ∧
        Follows 0 bf fd fd := by
  obtain ⟨reliable, appendEq, atStart⟩ :=
    reliable_openFile plain.access opened
  have system : openFile file (systemFlags flags) [] = some fd := by
    rw [plain.systemFlags_eq, opened]
  obtain ⟨bf, started⟩ : ∃ bf,
      bufferedOpen (.ample readMem writeMem) file flags [] =
        some (bf, fd) := by
    simp [bufferedOpen, Heap.ample, system]
  obtain ⟨wellFormed, noPending, noLeftover, mode, -⟩ :=
    wellFormed_opened started
  exact ⟨bf, started,
    follows_opened wellFormed noPending noLeftover
      (mode.trans plain.noPreappend) reliable
      (appendEq.trans plain.noAppend) atStart⟩

/--
The buffered and the direct session show the same: every read returns the same
bytes and the final contents agree.
-/
def Transparent (readMem writeMem : Fin BUFFER_SIZE → Byte)
    (file : Option (List Byte)) (flags : Flags) (calls : List Call) : Prop :=
  (bufferedSession (.ample readMem writeMem) file flags [] calls).map
      observed =
    (directSession file flags [] calls).map observed

theorem transparent_of_aligned
    (readMem writeMem : Fin BUFFER_SIZE → Byte)
    {file : Option (List Byte)} {flags : Flags} {calls : List Call}
    {content : List Byte} (plain : PlainFlags flags)
    (opened : (openFile file flags []).map OpenFile.content = some content)
    (aligned : Aligned content.length 0 0 (calls.map Call.shape)) :
    Transparent readMem writeMem file flags calls := by
  obtain ⟨fd, openedFile, contentEq⟩ := Option.map_eq_some_iff.mp opened
  obtain ⟨bf, started, follows⟩ :=
    plain.opened readMem writeMem openedFile
  have atStart := (reliable_openFile plain.access openedFile).2.2
  obtain ⟨base', bf', fd', run, final⟩ :=
    bufferedCalls_of_aligned calls follows (by
      rw [contentEq, atStart]
      exact aligned)
  have finalContent : (bufferedClose bf' fd').2.content =
      (directCalls calls fd).2.content := by
    rw [bufferedClose_eq final.wellFormed
      (flawless_of_reliable final.reliable _), final.normal,
      flushed_normal final.noAppend final.inside,
      store_content final.noAppend, final.content]
  have directClose : (closeFile (directCalls calls fd).2).2.content =
      (directCalls calls fd).2.content :=
    rfl
  simp only [Transparent, bufferedSession, started, run, directSession,
    openedFile, Option.map_some, observed, finalContent, directClose]

/--
The buffered layer is transparent for every file of a length and every session
of a shape exactly when the shape is aligned.
-/
theorem transparent_iff_aligned
    (length : Nat) (shapes : List CallShape) :
    (∀ (readMem writeMem : Fin BUFFER_SIZE → Byte)
        (file : Option (List Byte)) (flags : Flags) (content : List Byte)
        (calls : List Call),
        PlainFlags flags →
        (openFile file flags []).map OpenFile.content = some content →
        content.length = length → calls.map Call.shape = shapes →
        Transparent readMem writeMem file flags calls) ↔
      Aligned length 0 0 shapes := by
  constructor
  · intro transparent
    by_contra misaligned
    have plain : PlainFlags O_RDWR := by
      constructor <;> decide
    obtain ⟨fd, openedFile⟩ : ∃ fd : OpenFile Byte,
        openFile (some (List.replicate length 0)) O_RDWR [] = some fd :=
      ⟨_, rfl⟩
    have contentEq : fd.content = List.replicate length 0 := by
      cases openedFile
      rfl
    have same := transparent zeroMemory zeroMemory
      (some (List.replicate length 0)) O_RDWR (List.replicate length 0)
      (shapes.map CallShape.ones) plain
      (by rw [openedFile, Option.map_some, contentEq])
      (List.length_replicate) (CallShape.map_shape_ones shapes)
    obtain ⟨bf, started, follows⟩ :=
      plain.opened zeroMemory zeroMemory openedFile
    have atStart := (reliable_openFile plain.access openedFile).2.2
    simp only [Transparent, bufferedSession, started, directSession,
      openedFile, Option.map_some, Option.map_map] at same
    obtain ⟨⟨replies, bf', fd'⟩, run, equal⟩ :=
      Option.map_eq_some_iff.mp same
    have contents := congrArg Prod.snd equal
    refine contents_differ_of_not_aligned shapes follows ?_ ?_ run contents
    · intro byte member
      rw [contentEq] at member
      exact List.eq_of_mem_replicate (List.mem_of_mem_drop member)
    · rw [contentEq, List.length_replicate, atStart]
      exact misaligned
  · rintro aligned readMem writeMem file flags content calls plain opened
      rfl rfl
    exact transparent_of_aligned readMem writeMem plain opened aligned

/--
One byte read, one byte written: the byte lands at the end of a file of two
bytes, where the direct session replaces its second byte.
-/
theorem read_then_write_not_transparent :
    PlainFlags O_RDWR ∧
      ¬ Transparent zeroMemory zeroMemory (some [0, 0]) O_RDWR
        [.read 1, .write [1]] := by
  have plain : PlainFlags O_RDWR := by
    constructor <;> decide
  refine ⟨plain, ?_⟩
  intro same
  obtain ⟨fd, openedFile⟩ : ∃ fd : OpenFile Byte,
      openFile (some [0, 0]) O_RDWR [] = some fd :=
    ⟨_, rfl⟩
  have contentEq : fd.content = [0, 0] := by
    cases openedFile
    rfl
  obtain ⟨bf, started, follows⟩ :=
    plain.opened zeroMemory zeroMemory openedFile
  have atStart := (reliable_openFile plain.access openedFile).2.2
  simp only [Transparent, bufferedSession, started, directSession,
    openedFile, Option.map_some, Option.map_map] at same
  obtain ⟨⟨replies, bf', fd'⟩, run, equal⟩ :=
    Option.map_eq_some_iff.mp same
  refine contents_differ_of_not_aligned [.read 1, .write 1] follows ?_ ?_ run
    (congrArg Prod.snd equal)
  · intro byte member
    rw [contentEq] at member
    have zero : byte ∈ ([0, 0] : List Byte) := List.mem_of_mem_drop member
    simpa using zero
  · rw [contentEq, atStart]
    simp [Aligned, BUFFER_SIZE]

end OSCourse.BufferedIo
