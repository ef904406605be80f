import OSCourse.BufferedIo.WriteSessions

/-!
# Exactly once

A session of `buffered_write` and `buffered_flush` calls that ends with success
leaves the data at the file position or, with `O_PREAPPEND`, in front of the old
content, provided that no flush of it stores something and fails.  With
`O_PREAPPEND` every flush puts its piece in front, so data that several flushes
carry are there piece by piece, the last one first.
-/

namespace OSCourse.BufferedIo

open OSCourse.Library.PosixFile
open Flags

/-! ## What a session leaves -/

/--
The content that a session leaves in a file that it finds as `fd`: the data at
the file position, or the pieces that the flushes carry in front of the old
content.
-/
def sessionContent (preappend : Bool) (fd : OpenFile Byte)
    (calls : List Call) : List Byte :=
  if preappend then
    (chunks calls).reverse.flatten ++ fd.content
  else
    overwrite fd.content fd.writePosition (writtenBytes calls)

/-- At most one flush of the session carries data. -/
def OneFlush (calls : List Call) : Prop :=
  ((chunks calls).filter (· ≠ [])).length ≤ 1

instance (calls : List Call) : Decidable (OneFlush calls) :=
  inferInstanceAs (Decidable (_ ≤ _))

/-- Data that one flush carries are in order. -/
theorem OneFlush.reverse {calls : List Call} (one : OneFlush calls) :
    (chunks calls).reverse.flatten = writtenBytes calls := by
  unfold OneFlush at one
  rw [← flatten_chunks, ← List.flatten_filter_ne_nil,
    ← List.flatten_filter_ne_nil (L := chunks calls), List.filter_reverse]
  generalize (chunks calls).filter (· ≠ []) = carried at one ⊢
  match carried, one with
  | [], _ => rfl
  | [_], _ => rfl

/-- A session in which every call succeeds leaves that content. -/
theorem content_of_flawless {heap : Heap} {file : Option (List Byte)}
    {flags : Flags} {calls : List Call} {replies : List Reply}
    {content : List Byte} {bf : BufferedFile} {fd : OpenFile Byte}
    (access : flags.accmode = O_WRONLY ∨ flags.accmode = O_RDWR)
    (plain : flags.has O_PREAPPEND = true → flags.has O_APPEND = false)
    (writeOnly : WriteOnly calls)
    (opened : bufferedOpen heap file flags [] = some (bf, fd))
    (ran : bufferedSession heap file flags [] calls =
      some (replies, 0, content)) :
    content = sessionContent (flags.has O_PREAPPEND) fd calls := by
  rcases wellFormed_opened opened with ⟨_, _, _, mode, openedFile⟩
  rcases openFile_cases openedFile with ⟨offset, _, _, append, _, _⟩
  have flawless := flawless_opened access opened
  rcases session_streamed writeOnly opened flawless with
    ⟨bf', fd', results, _, closed⟩
  simp only [bufferedSession, opened, results, closed, Option.map_some,
    Option.some.injEq, Prod.mk.injEq] at ran
  rcases ran with ⟨-, -, rfl⟩
  unfold sessionContent
  rw [mode]
  cases preappend : flags.has O_PREAPPEND with
  | true =>
      have noAppend : fd.append = false := by
        rw [append, has_append_systemFlags]
        exact plain preappend
      exact (content_foldl_flushed (chunks calls) noAppend).2
  | false =>
      rw [foldl_flushed_normal, flatten_chunks]
      by_cases empty : writtenBytes calls = []
      · simp [flushed, empty, overwrite_nil (inside_opened openedFile)]
      · simp [flushed, empty, OpenFile.store]

/-! ## The law -/

/--
The final content of a session on the file that it finds as `fd`: what it leaves
when every call of `write` succeeds in full, which is the data at the file
position or, with `O_PREAPPEND`, the pieces in front of the old content; data
that one flush carries then stand as they were written in front of the old
content.
-/
structure Exact (heap : Heap) (file : Option (List Byte)) (flags : Flags)
    (calls : List Call) (fd : OpenFile Byte) (content : List Byte) : Prop where
  ideal : ∃ replies, bufferedSession heap file flags [] calls =
    some (replies, 0, content)
  laidOut : content = sessionContent (flags.has O_PREAPPEND) fd calls
  inFront : flags.has O_PREAPPEND = true → OneFlush calls →
    content = writtenBytes calls ++ fd.content

/--
If every `buffered_write` returns its count and `buffered_close` reports
success, the content of the file is exact.
-/
def ExactlyOnce (heap : Heap) (file : Option (List Byte)) (flags : Flags)
    (outcomes : List Outcome) (calls : List Call) : Prop :=
  ∀ bf fd, bufferedOpen heap file flags outcomes = some (bf, fd) →
    ∀ replies content,
      bufferedSession heap file flags outcomes calls =
          some (replies, 0, content) →
        FullCounts calls replies → Exact heap file flags calls fd content

/--
A session of `buffered_write` and `buffered_flush` calls of at most one buffer
of data, not opened with both `O_APPEND` and `O_PREAPPEND`, writes exactly once
if no flush of it stores something and fails.
-/
theorem exactlyOnce_of_untorn (heap : Heap) (file : Option (List Byte))
    (flags : Flags) (outcomes : List Outcome) (calls : List Call)
    (access : flags.accmode = O_WRONLY ∨ flags.accmode = O_RDWR)
    (plain : flags.has O_PREAPPEND = true → flags.has O_APPEND = false)
    (writeOnly : WriteOnly calls)
    (small : (writtenBytes calls).length ≤ BUFFER_SIZE)
    (untorn : UntornSession heap file flags outcomes calls) :
    ExactlyOnce heap file flags outcomes calls := by
  intro bf fd opened replies content ran full
  have ideal : ∃ replies', bufferedSession heap file flags [] calls =
      some (replies', 0, content) := by
    rcases session_settled access writeOnly small ran full untorn with
      ⟨bf', fd', opened', rfl⟩
    exact exists_flawless_session access writeOnly small opened'
  have laidOut : content =
      sessionContent (flags.has O_PREAPPEND) fd calls := by
    rcases ideal with ⟨replies', ran'⟩
    rw [content_of_flawless access plain writeOnly (bufferedOpen_nil opened)
      ran']
    rfl
  refine ⟨ideal, laidOut, ?_⟩
  intro preappend one
  rw [laidOut, sessionContent, if_pos preappend, one.reverse]

/-! ## Two bytes written to an empty file -/

/-- The first `write` of the session fails and stores nothing. -/
theorem untornSession_error :
    UntornSession (.ample zeroMemory zeroMemory) (some []) O_WRONLY
      [.full, .error] [.write [1, 2]] := by
  intro bf fd opened
  have access : O_WRONLY.accmode = O_WRONLY ∨ O_WRONLY.accmode = O_RDWR :=
    .inl (by decide)
  have tracks : Tracks false 2 bf fd fd [] :=
    tracks_opened access (by decide) opened
  rcases wellFormed_opened opened with ⟨wellFormed, empty, _, mode, openedFile⟩
  have normal : bf.preappend = false := mode.trans (by decide)
  have outcomes : fd.outcomes = [.error] :=
    (openFile_cases openedFile).2.2.2.2.1
  refine ⟨fun _ failure => (by cases failure), ?_⟩
  intro result bf' fd' written
  have position : bf.writeBufferPos = 0 := by
    rw [← wellFormed.length_pending, empty]
    rfl
  rw [bufferedWrite_fits fd wellFormed (by decide)
    (by rw [position]; decide), if_neg (by rw [position]; decide)] at written
  cases written
  have pending : (copyIn bf [1, 2]).pending = [1, 2] := by
    rw [pending_copyIn wellFormed (by rw [position]; decide), empty]
    rfl
  have modeCopy : (copyIn bf [1, 2]).preappend = false := normal
  have flush : bufferedFlush (copyIn bf [1, 2]) fd =
      (-1, copyIn bf [1, 2], fd.advance) := by
    have failing : fd.outcome = .error := by
      simp [OpenFile.outcome, outcomes]
    have positive : (copyIn bf [1, 2]).writeBufferPos ≠ 0 := by
      simp [copyIn]
    simp [bufferedFlush, positive, modeCopy, normalFlush, OpenFile.write,
      failing, pending]
  refine ⟨?_, ?_⟩
  · rw [modeCopy, pending]
    simp [Tears, OpenFile.outcome, outcomes, storedCount]
  · intro _
    rw [flush, modeCopy, pending]
    simp [Tears, OpenFile.outcome, OpenFile.advance, outcomes, storedCount]

/-- The repeated flush leaves the two bytes. -/
theorem exactlyOnce_of_untorn_error :
    ExactlyOnce (.ample zeroMemory zeroMemory) (some []) O_WRONLY
        [.full, .error] [.write [1, 2]] ∧
      bufferedSession (.ample zeroMemory zeroMemory) (some []) O_WRONLY
        [.full, .error] [.write [1, 2]] = some ([.status 2], 0, [1, 2]) :=
  ⟨exactlyOnce_of_untorn (.ample zeroMemory zeroMemory) (some []) O_WRONLY
    [.full, .error] [.write [1, 2]] (.inl (by decide)) (by decide)
    (by simp [WriteOnly]) (by decide) untornSession_error, by decide +kernel⟩

/--
The first `write` stores one of the two bytes; the repeated flush writes both
again, and the session reports success.
-/
theorem short_write_repeats_byte :
    ¬ ExactlyOnce (.ample zeroMemory zeroMemory) (some []) O_WRONLY
      [.full, .short 1] [.write [1, 2]] := by
  intro once
  have ran : bufferedSession (.ample zeroMemory zeroMemory) (some [])
      O_WRONLY [.full, .short 1] [.write [1, 2]] =
        some ([.status 2], 0, [1, 1, 2]) := by
    decide +kernel
  have ideal : bufferedSession (.ample zeroMemory zeroMemory) (some [])
      O_WRONLY [] [.write [1, 2]] = some ([.status 2], 0, [1, 2]) := by
    decide +kernel
  rcases once _ _ (Option.some_get (by rfl)).symm _ _ ran
    (by simp [FullCounts]) with ⟨⟨replies, equal⟩, -, -⟩
  rw [ideal] at equal
  simp at equal

end OSCourse.BufferedIo
