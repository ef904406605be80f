import OSCourse.BufferedIo.Flush

/-!
# Sessions that write in front of the file

With `O_PREAPPEND` every flush shifts the whole file and puts its data in
front.  Since `buffered_write` flushes each time the buffer is full, a long
session leaves its buffers in reverse order.
-/

namespace OSCourse.BufferedIo

open OSCourse.Library.PosixFile
open OSCourse.Library.Chunks
open Flags

/-! ## The flags that reach the system -/

/-- `O_APPEND` is passed on as it was given. -/
theorem append_systemFlags (flags : Flags) :
    systemFlags flags &&& O_APPEND = flags &&& O_APPEND := by
  have append : O_APPEND = BitVec.twoPow 32 10 := by decide
  have preappend : O_PREAPPEND = BitVec.twoPow 32 30 := by decide
  have wronly : O_WRONLY = BitVec.twoPow 32 0 := by decide
  have rdwr : O_RDWR = BitVec.twoPow 32 1 := by decide
  unfold systemFlags
  rw [append, preappend, wronly, rdwr]
  ext bit bound
  by_cases appendBit : bit = 10
  · subst appendBit
    dsimp only
    split
    · split <;> simp [BitVec.getElem_twoPow]
    · rfl
  · simp [BitVec.getElem_twoPow, appendBit]

theorem has_append_systemFlags (flags : Flags) :
    (systemFlags flags).has O_APPEND = flags.has O_APPEND := by
  rw [has, append_systemFlags, has]

/-- The access mode only depends on the access mode of the first word. -/
theorem accmode_forced (flags : Flags) :
    ((flags &&& ~~~O_WRONLY) ||| O_RDWR).accmode =
      ((flags.accmode &&& ~~~O_WRONLY) ||| O_RDWR).accmode := by
  unfold accmode
  ext bit bound
  simp only [BitVec.getElem_and, BitVec.getElem_or, BitVec.getElem_not]
  grind

/-- A preappending file that may be written may also be read. -/
theorem accmode_systemFlags_of_preappend
    {flags : Flags} (preappend : flags.has O_PREAPPEND = true)
    (access : flags.accmode = O_WRONLY ∨ flags.accmode = O_RDWR) :
    (systemFlags flags).accmode = O_RDWR := by
  have same : (flags &&& ~~~O_PREAPPEND).accmode = flags.accmode := by
    have clear : ~~~O_PREAPPEND &&& O_ACCMODE = O_ACCMODE := by decide
    rw [accmode, BitVec.and_assoc, clear, accmode]
  unfold systemFlags
  rw [if_pos preappend]
  dsimp only
  rw [same]
  rcases access with writeOnly | readWrite
  · rw [if_pos writeOnly, accmode_forced, same, writeOnly]
    decide
  · rw [readWrite, if_neg (by decide), same, readWrite]

theorem reliable_openFile
    {file : Option (List Byte)} {flags : Flags} {fd : OpenFile Byte}
    (access : flags.accmode = O_RDWR)
    (opened : openFile file flags [] = some fd) :
    fd.Reliable ∧ fd.append = flags.has O_APPEND ∧ fd.offset = 0 := by
  cases file with
  | some content =>
      simp only [openFile, List.headD_nil, reduceCtorEq, if_false,
        Option.some.injEq] at opened
      subst opened
      exact ⟨⟨rfl, by simp [access], by simp [access]⟩, rfl, rfl⟩
  | none =>
      simp only [openFile, List.headD_nil, reduceCtorEq, if_false] at opened
      split at opened
      · simp only [Option.some.injEq] at opened
        subst opened
        exact ⟨⟨rfl, by simp [access], by simp [access]⟩, rfl, rfl⟩
      · contradiction

/-! ## A sequence of writes -/

/-- A sequence of writes acts as one write of the concatenated data. -/
theorem bufferedCalls_writes
    (datas : List (List Byte))
    {bf : BufferedFile} {fd : OpenFile Byte}
    (wellFormed : WellFormed bf) (flawless : Flawless bf.preappend fd) :
    ∃ replies bf' fd',
      bufferedCalls (datas.map .write) bf fd = some (replies, bf', fd') ∧
        Written bf fd datas.flatten bf' fd' := by
  induction datas generalizing bf fd with
  | nil => exact ⟨[], bf, fd, rfl, written_nil wellFormed fd⟩
  | cons data rest ih =>
      obtain ⟨bf₁, fd₁, written, first⟩ :=
        bufferedWrite_eq wellFormed flawless data
      have flawless₁ : Flawless bf₁.preappend fd₁ := by
        rw [first.file, first.preappend]
        exact flawless.afterChunks _ _
      obtain ⟨replies, bf₂, fd₂, result, later⟩ :=
        ih first.wellFormed flawless₁
      refine ⟨.status data.length :: replies, bf₂, fd₂, ?_, ?_⟩
      · simp [bufferedCalls, bufferedCall, written, result]
      · refine ⟨later.wellFormed, ?_, ?_,
          later.preappend.trans first.preappend,
          later.readBuffer.trans first.readBuffer,
          later.readBufferSize.trans first.readBufferSize,
          later.readBufferPos.trans first.readBufferPos⟩
        · rw [later.pending, first.pending, List.flatten_cons,
            ← List.append_assoc,
            ← lastChunk_lastChunk_append bufferSize_pos]
        · rw [later.file, first.file, first.preappend, first.pending,
            List.flatten_cons, ← List.append_assoc, flushChunks, flushChunks,
            flushChunks,
            fullChunks_lastChunk_append bufferSize_pos
              (bf.pending ++ data) rest.flatten,
            List.foldl_append]

/-! ## The layout of the file -/

theorem content_prepended
    {fd : OpenFile Byte} (noAppend : fd.append = false)
    (data : List Byte) :
    (prepended fd data).content = data ++ fd.content := by
  unfold prepended
  by_cases empty : fd.content = []
  · simp [empty, OpenFile.store, OpenFile.writePosition, noAppend, overwrite]
  · have inside : data.length ≤
        (data ++ fd.content.drop data.length).length := by
      simp
    simp only [empty, if_false, OpenFile.store, OpenFile.writePosition,
      noAppend, Bool.false_eq_true, overwrite_zero, Nat.zero_add]
    rw [overwrite_of_le inside, List.take_left, List.drop_eq_nil_of_le,
      List.append_nil]
    simp only [List.length_append, List.length_drop]
    omega

theorem content_flushed_preappend
    {fd : OpenFile Byte} (noAppend : fd.append = false)
    (data : List Byte) :
    (flushed true fd data).content = data ++ fd.content := by
  by_cases empty : data = []
  · simp [flushed, empty]
  · simp [flushed, empty, content_prepended noAppend]

/-- Each chunk lands in front of the chunks flushed before it. -/
theorem content_foldl_flushed
    (chunks : List (List Byte)) {fd : OpenFile Byte}
    (noAppend : fd.append = false) :
    (chunks.foldl (flushed true) fd).append = false ∧
      (chunks.foldl (flushed true) fd).content =
        chunks.reverse.flatten ++ fd.content := by
  induction chunks generalizing fd with
  | nil => exact ⟨noAppend, rfl⟩
  | cons chunk rest ih =>
      have next : (flushed true fd chunk).append = false :=
        (append_flushed true fd chunk).trans noAppend
      obtain ⟨appendRest, contentRest⟩ := ih next
      refine ⟨appendRest, ?_⟩
      rw [List.foldl_cons, contentRest, content_flushed_preappend noAppend]
      simp [List.append_assoc]

/-- The data of a session as its flushes lay it out: last chunk first. -/
def reversedChunks (data : List Byte) : List Byte :=
  lastChunk BUFFER_SIZE data ++ (fullChunks BUFFER_SIZE data).reverse.flatten

/-- The final content of a session that only writes. -/
theorem preappend_session_content
    (readMem writeMem : Fin BUFFER_SIZE → Byte)
    {file : Option (List Byte)} {flags : Flags} (old : List Byte)
    (datas : List (List Byte))
    (preappend : flags.has O_PREAPPEND = true)
    (noAppend : flags.has O_APPEND = false)
    (access : flags.accmode = O_WRONLY ∨ flags.accmode = O_RDWR)
    (opened :
      (openFile file (systemFlags flags) []).map OpenFile.content =
        some old) :
    (bufferedSession (.ample readMem writeMem) file flags []
        (datas.map .write)).map (fun result => result.2.2) =
      some (reversedChunks datas.flatten ++ old) := by
  obtain ⟨fd, openedFile, contentEq⟩ := Option.map_eq_some_iff.mp opened
  obtain ⟨reliable, appendEq, -⟩ :=
    reliable_openFile
      (accmode_systemFlags_of_preappend preappend access) openedFile
  have fdAppend : fd.append = false := by
    rw [appendEq, has_append_systemFlags, noAppend]
  obtain ⟨bf, started⟩ : ∃ bf,
      bufferedOpen (.ample readMem writeMem) file flags [] =
        some (bf, fd) := by
    simp [bufferedOpen, Heap.ample, openedFile]
  obtain ⟨wellFormed, noPending, -, mode, -⟩ := wellFormed_opened started
  obtain ⟨replies, bf', fd', calls, written⟩ :=
    bufferedCalls_writes datas wellFormed (flawless_of_reliable reliable _)
  have modeTrue : bf.preappend = true := mode.trans preappend
  have chunks := content_foldl_flushed
    (fullChunks BUFFER_SIZE datas.flatten) fdAppend
  have fileEq : fd' =
      (fullChunks BUFFER_SIZE datas.flatten).foldl (flushed true) fd := by
    rw [written.file, noPending, modeTrue, flushChunks, List.nil_append]
  have flawless' : Flawless bf'.preappend fd' := by
    rw [written.file]
    exact (flawless_of_reliable reliable _).afterChunks _ _
  have append' : fd'.append = false := by
    rw [fileEq]
    exact chunks.1
  rw [bufferedSession, started]
  dsimp only
  rw [calls]
  simp only [Option.map_some, bufferedClose_eq written.wellFormed flawless',
    written.preappend, modeTrue, content_flushed_preappend append',
    written.pending, noPending, List.nil_append]
  rw [fileEq, chunks.2, contentEq, reversedChunks, List.append_assoc]

/-- A session that fits one buffer keeps its data in order. -/
theorem reversedChunks_of_le
    {data : List Byte} (short : data.length ≤ BUFFER_SIZE) :
    reversedChunks data = data := by
  unfold reversedChunks
  rcases Nat.lt_or_eq_of_le short with less | full
  · simp [less]
  · have chunks := fullChunks_append full bufferSize_pos []
    have last := lastChunk_append full bufferSize_pos []
    rw [List.append_nil] at chunks last
    rw [chunks, last, lastChunk_of_lt (by exact bufferSize_pos),
      fullChunks_of_lt (by exact bufferSize_pos)]
    simp

/--
The written order is kept exactly when the data fits one buffer, or when its
buffers happen to spell the same bytes in reverse order.
-/
theorem preappend_keeps_order_iff
    (readMem writeMem : Fin BUFFER_SIZE → Byte)
    (file : Option (List Byte)) (flags : Flags) (old : List Byte)
    (datas : List (List Byte))
    (preappend : flags.has O_PREAPPEND = true)
    (noAppend : flags.has O_APPEND = false)
    (access : flags.accmode = O_WRONLY ∨ flags.accmode = O_RDWR)
    (opened :
      (openFile file (systemFlags flags) []).map OpenFile.content =
        some old) :
    (bufferedSession (.ample readMem writeMem) file flags []
        (datas.map .write)).map (fun result => result.2.2) =
        some (datas.flatten ++ old) ↔
      datas.flatten.length ≤ BUFFER_SIZE ∨
        reversedChunks datas.flatten = datas.flatten := by
  rw [preappend_session_content readMem writeMem old datas preappend noAppend
    access opened, Option.some.injEq, List.append_left_inj]
  constructor
  · intro equal
    exact Or.inr equal
  · rintro (short | equal)
    · exact reversedChunks_of_le short
    · exact equal

/-- The buffer contents of the concrete sessions below. -/
def zeroMemory : Fin BUFFER_SIZE → Byte :=
  fun _ => 0

/-- Two short writes to a file with the content `[7]` stay in order. -/
theorem preappend_keeps_order_short :
    (bufferedSession (.ample zeroMemory zeroMemory) (some [7])
        (O_WRONLY ||| O_PREAPPEND) []
        ([[1, 2], [3]].map .write)).map (fun result => result.2.2) =
      some ([1, 2, 3] ++ [7]) :=
  (preappend_keeps_order_iff zeroMemory zeroMemory (some [7])
    (O_WRONLY ||| O_PREAPPEND) [7] [[1, 2], [3]]
    (by decide) (by decide) (by decide) (by decide)).mpr
    (Or.inl (by decide))

theorem reversedChunks_overfull (byte : Byte) :
    reversedChunks (List.replicate BUFFER_SIZE byte ++ [1]) =
      1 :: List.replicate BUFFER_SIZE byte := by
  have full : (List.replicate BUFFER_SIZE byte).length = BUFFER_SIZE := by
    simp
  have single : [(1 : Byte)].length < BUFFER_SIZE := by decide
  rw [reversedChunks, lastChunk_append full bufferSize_pos,
    fullChunks_append full bufferSize_pos, lastChunk_of_lt single,
    fullChunks_of_lt single]
  simp

/--
A full buffer of zeros and one more byte, written to an empty file: the last
byte ends up in front.
-/
theorem preappend_reorders_long_session :
    ([List.replicate BUFFER_SIZE 0, [1]] : List (List Byte)).flatten.length =
        BUFFER_SIZE + 1 ∧
      (bufferedSession (.ample zeroMemory zeroMemory) (some [])
        (O_WRONLY ||| O_PREAPPEND) []
        ([List.replicate BUFFER_SIZE 0, [1]].map .write)).map
          (fun result => result.2.2) ≠
        some
          (([List.replicate BUFFER_SIZE 0, [1]] : List (List Byte)).flatten ++
            []) := by
  refine ⟨by simp, ?_⟩
  rw [preappend_session_content zeroMemory zeroMemory [] _
    (by decide) (by decide) (by decide) (by decide)]
  have flat : ([List.replicate BUFFER_SIZE 0, [1]] : List (List Byte)).flatten =
      List.replicate BUFFER_SIZE 0 ++ [1] := by
    simp
  rw [flat, reversedChunks_overfull]
  intro equal
  have heads := congrArg List.head? (Option.some.inj equal)
  rw [show BUFFER_SIZE = 4095 + 1 from rfl, List.replicate_succ] at heads
  change some (1 : Byte) = some 0 at heads
  exact absurd heads (by decide)

end OSCourse.BufferedIo
