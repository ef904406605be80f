import OSCourse.BufferedIo.Faults

/-!
# Sessions in which calls of `write` fail

A session of `buffered_write` and `buffered_flush` calls that ends with success
leaves what it would leave if every `write` succeeded, provided that no failed
flush has stored anything.
-/

namespace OSCourse.BufferedIo

open OSCourse.Library.PosixFile
open Flags

/-- The bytes a call adds. -/
def Call.data : Call → List Byte
  | .write data => data
  | _ => []

/-- The bytes that a sequence of calls writes. -/
def writtenBytes (calls : List Call) : List Byte :=
  calls.flatMap Call.data

/--
No flush of the session stores something and fails; with `O_PREAPPEND`, no new
data come between a failed `buffered_flush` and its repetition.  `failed` says
whether the last `buffered_flush` has failed.
-/
def Untorn : Bool → List Call → BufferedFile → OpenFile Byte → Prop
  | _, [], bf, fd =>
      ¬ Tears bf.preappend fd bf.pending ∧
        ((bufferedFlush bf fd).1 = -1 →
          ¬ Tears bf.preappend (bufferedFlush bf fd).2.2 bf.pending)
  | failed, .write data :: rest, bf, fd =>
      (bf.preappend = true → failed = true → data = []) ∧
        ∀ result bf' fd', bufferedWrite bf fd data = some (result, bf', fd') →
          Untorn failed rest bf' fd'
  | _, .flush :: rest, bf, fd =>
      ¬ Tears bf.preappend fd bf.pending ∧
        Untorn ((bufferedFlush bf fd).1 == -1) rest (bufferedFlush bf fd).2.1
          (bufferedFlush bf fd).2.2
  | failed, .read count :: rest, bf, fd =>
      ∀ result bf' fd', bufferedRead bf fd count = some (result, bf', fd') →
        Untorn failed rest bf' fd'

/-- The file when every call of `write` succeeds: each `buffered_flush`, and
`buffered_close`, flushes what was written since the last one. -/
def settled (preappend : Bool) :
    OpenFile Byte → List Byte → List Call → OpenFile Byte
  | fd, pending, [] => flushed preappend fd pending
  | fd, pending, .write data :: rest =>
      settled preappend fd (pending ++ data) rest
  | fd, pending, .flush :: rest =>
      settled preappend (flushed preappend fd pending) [] rest
  | fd, pending, .read _ :: rest => settled preappend fd pending rest

/-- How the session in which calls may fail stands to the one in which every
call succeeds. -/
structure Tracks (failed : Bool) (coming : Nat) (bf : BufferedFile)
    (fd : OpenFile Byte) (ideal : OpenFile Byte) (pending : List Byte) :
    Prop where
  wellFormed : WellFormed bf
  usable : Usable bf.preappend fd
  usableIdeal : Usable bf.preappend ideal
  room : bf.pending.length + coming ≤ BUFFER_SIZE
  view : Like bf.preappend (flushed bf.preappend fd bf.pending)
    (flushed bf.preappend ideal pending)
  together : bf.preappend = true → failed = false → 0 < coming →
    Like bf.preappend fd ideal ∧ bf.pending = pending

/-- More data on both sides. -/
theorem Tracks.view_append {failed : Bool} {coming : Nat} {bf : BufferedFile}
    {fd ideal : OpenFile Byte} {pending data : List Byte}
    (tracks : Tracks failed (data.length + coming) bf fd ideal pending)
    (allowed : bf.preappend = true → failed = true → data = []) :
    Like bf.preappend (flushed bf.preappend fd (bf.pending ++ data))
      (flushed bf.preappend ideal (pending ++ data)) := by
  rcases tracks with ⟨_, usable, usableIdeal, _, view, together⟩
  cases mode : bf.preappend with
  | false =>
      rw [mode] at usable usableIdeal view
      refine (like_flushed_flushed usable bf.pending data).symm.trans ?_
      refine (view.flushed data).trans ?_
      exact like_flushed_flushed usableIdeal pending data
  | true =>
      rw [mode] at view together
      by_cases empty : data = []
      · rw [empty, List.append_nil, List.append_nil]
        exact view
      · have positive : 0 < data.length := List.length_pos_iff.mpr empty
        have success : failed = false := by
          by_contra failure
          exact empty (allowed mode (by simpa using failure))
        rcases together rfl success (by omega) with ⟨like, same⟩
        rw [same]
        exact like.flushed (pending ++ data)

/-- `buffered_write` on both sides. -/
theorem Tracks.write {failed : Bool} {coming : Nat} {bf bf' : BufferedFile}
    {fd fd' ideal : OpenFile Byte} {pending data : List Byte}
    (tracks : Tracks failed (data.length + coming) bf fd ideal pending)
    (allowed : bf.preappend = true → failed = true → data = [])
    (ran : bufferedWrite bf fd data = some ((data.length : Int), bf', fd')) :
    Tracks failed coming bf' fd' ideal (pending ++ data) := by
  have view := tracks.view_append allowed
  have room := tracks.room
  rcases bufferedWrite_cases tracks.wellFormed tracks.usable (by omega) ran
    with ⟨wellFormed, mode, ⟨kept, rfl⟩ | ⟨full, empty, like⟩⟩
  · constructor
    case wellFormed => exact wellFormed
    case usable =>
      rw [mode]
      exact tracks.usable
    case usableIdeal =>
      rw [mode]
      exact tracks.usableIdeal
    case room =>
      rw [kept, List.length_append]
      omega
    case view =>
      rw [mode, kept]
      exact view
    case together =>
      rw [mode, kept]
      intro preappend success more
      rcases tracks.together preappend success (by omega) with ⟨like, same⟩
      exact ⟨like, by rw [same]⟩
  · constructor
    case wellFormed => exact wellFormed
    case usable =>
      rw [mode]
      exact (tracks.usable.flushed _).like like
    case usableIdeal =>
      rw [mode]
      exact tracks.usableIdeal
    case room =>
      rw [empty, List.length_nil]
      omega
    case view =>
      rw [mode, empty, flushed, if_pos rfl]
      exact like.trans view
    case together =>
      intro _ _ more
      omega

/-- `buffered_flush` on both sides. -/
theorem Tracks.flush {failed : Bool} {coming : Nat} {bf : BufferedFile}
    {fd ideal : OpenFile Byte} {pending : List Byte}
    (tracks : Tracks failed coming bf fd ideal pending)
    (untorn : ¬ Tears bf.preappend fd bf.pending) :
    Tracks ((bufferedFlush bf fd).1 == -1) coming (bufferedFlush bf fd).2.1
      (bufferedFlush bf fd).2.2 (flushed bf.preappend ideal pending) [] := by
  have nothing : ∀ fd, flushed bf.preappend fd [] = fd := by
    intro fd
    rw [flushed, if_pos rfl]
  have length := tracks.wellFormed.length_pending
  have bound := tracks.wellFormed.writePos
  rcases bufferedFlush_cases tracks.usable length with
    ⟨next, flush, like, _⟩ | ⟨next, flush, kept⟩
  · rw [flush]
    have empty : { bf with writeBufferPos := 0 }.pending = [] :=
      pending_eq_nil rfl
    have synced : Like bf.preappend next
        (flushed bf.preappend ideal pending) := like.trans tracks.view
    constructor
    case wellFormed =>
      exact ⟨tracks.wellFormed.writeLength, tracks.wellFormed.writeSize,
        bufferSize_pos, tracks.wellFormed.readLength,
        tracks.wellFormed.readSize, tracks.wellFormed.readPos⟩
    case usable => exact (tracks.usable.flushed bf.pending).like like
    case usableIdeal => exact tracks.usableIdeal.flushed pending
    case room =>
      have room := tracks.room
      rw [empty, List.length_nil]
      omega
    case view =>
      rw [empty]
      show Like bf.preappend (flushed bf.preappend next [])
        (flushed bf.preappend (flushed bf.preappend ideal pending) [])
      rw [nothing, nothing]
      exact synced
    case together =>
      intro _ _ _
      exact ⟨synced, empty⟩
  · rw [flush]
    have same := kept untorn
    constructor
    case wellFormed => exact tracks.wellFormed
    case usable => exact tracks.usable.like same
    case usableIdeal => exact tracks.usableIdeal.flushed pending
    case room => exact tracks.room
    case view =>
      show Like bf.preappend (flushed bf.preappend next bf.pending)
        (flushed bf.preappend (flushed bf.preappend ideal pending) [])
      rw [nothing]
      exact (same.flushed bf.pending).trans tracks.view
    case together =>
      intro _ success
      cases success

/-! ## Sessions -/

/-- Every `buffered_write` returns its count. -/
def FullCounts (calls : List Call) (replies : List Reply) : Prop :=
  ∀ pair ∈ calls.zip replies, ∀ data, pair.1 = .write data →
    pair.2 = .status data.length

/-- Only `buffered_write` and `buffered_flush`. -/
def WriteOnly (calls : List Call) : Prop :=
  ∀ call ∈ calls, ∀ count, call ≠ .read count

/-- A sequence of calls on both sides. -/
theorem Tracks.calls {failed : Bool} {calls : List Call}
    {bf bf' : BufferedFile} {fd fd' ideal : OpenFile Byte}
    {pending : List Byte} {replies : List Reply}
    (tracks : Tracks failed (writtenBytes calls).length bf fd ideal pending)
    (writeOnly : WriteOnly calls)
    (ran : bufferedCalls calls bf fd = some (replies, bf', fd'))
    (full : FullCounts calls replies) (untorn : Untorn failed calls bf fd) :
    ∃ failed' ideal' pending',
      Tracks failed' 0 bf' fd' ideal' pending' ∧ Untorn failed' [] bf' fd' ∧
        bf'.preappend = bf.preappend ∧
        settled bf.preappend ideal pending calls =
          flushed bf.preappend ideal' pending' := by
  induction calls generalizing failed bf fd ideal pending replies with
  | nil =>
      cases ran
      exact ⟨failed, ideal, pending, tracks, untorn, rfl, rfl⟩
  | cons call rest induction =>
      have later : WriteOnly rest :=
        fun call member => writeOnly call (List.mem_cons_of_mem _ member)
      simp only [bufferedCalls] at ran
      split at ran
      · cases ran
      · rename_i reply bf₁ fd₁ called
        rcases Option.map_eq_some_iff.mp ran with
          ⟨⟨replies₁, bf₂, fd₂⟩, run, equal⟩
        cases equal
        have fullRest : FullCounts rest replies₁ :=
          fun pair member => full pair (List.mem_cons_of_mem _ member)
        cases call with
        | read count => exact absurd rfl (writeOnly _ (by simp) count)
        | write data =>
            rcases Option.map_eq_some_iff.mp called with
              ⟨⟨result, bf₃, fd₃⟩, written, equal⟩
            cases equal
            have count := full (.write data, .status result) (by simp) data rfl
            cases count
            rw [writtenBytes, List.flatMap_cons, List.length_append] at tracks
            have next := tracks.write untorn.1 written
            have mode : bf₁.preappend = bf.preappend :=
              (bufferedWrite_cases tracks.wellFormed tracks.usable
                (by
                  have room := tracks.room
                  simp only [Call.data] at room
                  omega) written).2.1
            rcases induction next later run fullRest
              (untorn.2 _ _ _ written) with
              ⟨failed', ideal', pending', tracks', untorn', mode', equal⟩
            refine ⟨failed', ideal', pending', tracks', untorn',
              mode'.trans mode, ?_⟩
            rw [mode] at equal
            exact equal
        | flush =>
            have next := tracks.flush untorn.1
            have untornRest := untorn.2
            have mode : (bufferedFlush bf fd).2.1.preappend =
                bf.preappend := by
              rcases bufferedFlush_cases tracks.usable
                tracks.wellFormed.length_pending with
                ⟨_, flush, _⟩ | ⟨_, flush, _⟩
              · rw [flush]
              · rw [flush]
            cases flush : bufferedFlush bf fd with
            | mk result state =>
                rcases state with ⟨bf₃, fd₃⟩
                rw [flush] at next untornRest mode
                simp only [bufferedCall, flush, Option.some.injEq,
                  Prod.mk.injEq] at called
                rcases called with ⟨_, rfl, rfl⟩
                rcases induction next later run fullRest untornRest with
                  ⟨failed', ideal', pending', tracks', untorn', mode', equal⟩
                refine ⟨failed', ideal', pending', tracks', untorn',
                  mode'.trans mode, ?_⟩
                rw [mode] at equal
                exact equal

/-- `buffered_close` that reports success has flushed what was pending. -/
theorem Tracks.close {failed : Bool} {bf : BufferedFile}
    {fd fd' ideal : OpenFile Byte} {pending : List Byte}
    (tracks : Tracks failed 0 bf fd ideal pending)
    (untorn : Untorn failed [] bf fd)
    (closed : bufferedClose bf fd = (0, fd')) :
    fd'.content = (flushed bf.preappend ideal pending).content := by
  rw [← tracks.view.content]
  have length := tracks.wellFormed.length_pending
  unfold bufferedClose at closed
  by_cases empty : bf.writeBufferPos = 0
  · rw [if_neg (by omega)] at closed
    have same : fd.advance = fd' := (congrArg Prod.snd closed)
    rw [← same, flushed, if_pos (pending_eq_nil empty)]
    rfl
  · rw [if_pos (by omega)] at closed
    rcases bufferedFlush_cases tracks.usable length with
      ⟨next, flush, like, _⟩ | ⟨next, flush, kept⟩
    · rw [flush] at closed
      have same : next.advance = fd' := (congrArg Prod.snd closed)
      rw [← same]
      exact like.content
    · have like := kept untorn.1
      have usable := tracks.usable.like like
      rw [flush] at closed
      dsimp only at closed
      rcases bufferedFlush_cases usable length with
        ⟨last, again, success, _⟩ | ⟨last, again, _⟩
      · rw [again] at closed
        have same : last.advance = fd' := (congrArg Prod.snd closed)
        rw [← same]
        exact success.content.trans (like.flushed bf.pending).content
      · rw [again] at closed
        simp at closed

/-! ## Sessions in which every call succeeds -/

theorem Flawless.flush {bf : BufferedFile} {fd : OpenFile Byte}
    (flawless : Flawless bf.preappend fd)
    (length : bf.pending.length = bf.writeBufferPos) :
    ∃ next, bufferedFlush bf fd =
        (0, { bf with writeBufferPos := 0 }, next) ∧
      Flawless bf.preappend next :=
  ⟨_, bufferedFlush_eq flawless length, flawless.afterFlush _ _⟩

theorem Flawless.not_tears {bf : BufferedFile} {fd : OpenFile Byte}
    (flawless : Flawless bf.preappend fd)
    (usable : Usable bf.preappend fd)
    (length : bf.pending.length = bf.writeBufferPos) :
    ¬ Tears bf.preappend fd bf.pending := by
  rcases flawless.flush length with ⟨next, success, _⟩
  rcases bufferedFlush_cases usable length with
    ⟨_, _, _, whole⟩ | ⟨_, failure, _⟩
  · exact whole
  · rw [success] at failure
    simp at failure

theorem Flawless.write {bf : BufferedFile} {fd : OpenFile Byte}
    {data : List Byte} (flawless : Flawless bf.preappend fd)
    (wellFormed : WellFormed bf)
    (fits : bf.pending.length + data.length ≤ BUFFER_SIZE) :
    ∃ bf' fd', bufferedWrite bf fd data =
        some ((data.length : Int), bf', fd') ∧
      Flawless bf.preappend fd' := by
  rw [wellFormed.length_pending] at fits
  by_cases empty : data = []
  · subst empty
    exact ⟨bf, fd, rfl, flawless⟩
  · rw [bufferedWrite_fits fd wellFormed empty fits]
    split
    · have copied : Flawless (copyIn bf data).preappend fd := flawless
      rcases copied.flush (length_pending_copyIn wellFormed fits) with
        ⟨next, flush, later⟩
      rw [flush]
      exact ⟨_, next, rfl, later⟩
    · exact ⟨_, fd, rfl, flawless⟩

/-- Every sequence of calls succeeds. -/
theorem Flawless.calls {calls : List Call} {bf : BufferedFile}
    {fd ideal : OpenFile Byte} {pending : List Byte}
    (flawless : Flawless bf.preappend fd)
    (tracks : Tracks false (writtenBytes calls).length bf fd ideal pending)
    (writeOnly : WriteOnly calls) :
    ∃ replies bf' fd', bufferedCalls calls bf fd = some (replies, bf', fd') ∧
      FullCounts calls replies ∧ Untorn false calls bf fd ∧
      Flawless bf'.preappend fd' ∧ WellFormed bf' := by
  induction calls generalizing bf fd ideal pending with
  | nil =>
      have length := tracks.wellFormed.length_pending
      have whole := flawless.not_tears tracks.usable length
      refine ⟨[], bf, fd, rfl, by simp [FullCounts], ⟨whole, ?_⟩, flawless,
        tracks.wellFormed⟩
      rcases flawless.flush length with ⟨next, flush, _⟩
      rw [flush]
      intro failure
      cases failure
  | cons call rest induction =>
      have later : WriteOnly rest :=
        fun call member => writeOnly call (List.mem_cons_of_mem _ member)
      cases call with
      | read count => exact absurd rfl (writeOnly _ (by simp) count)
      | write data =>
          rw [writtenBytes, List.flatMap_cons, List.length_append] at tracks
          have fits : bf.pending.length + data.length ≤ BUFFER_SIZE := by
            have room := tracks.room
            simp only [Call.data] at room
            omega
          rcases flawless.write tracks.wellFormed fits with
            ⟨bf₁, fd₁, written, flawless₁⟩
          have mode := (bufferedWrite_cases tracks.wellFormed tracks.usable
            fits written).2.1
          rw [← mode] at flawless₁
          rcases induction flawless₁
            (tracks.write (fun _ failure => by cases failure) written)
            later with
            ⟨replies, bf₂, fd₂, run, full, untorn, flawless₂, wellFormed₂⟩
          refine ⟨.status data.length :: replies, bf₂, fd₂, ?_, ?_, ?_,
            flawless₂, wellFormed₂⟩
          · simp [bufferedCalls, bufferedCall, written, run]
          · intro pair member
            rcases List.mem_cons.mp member with rfl | member
            · rintro _ ⟨⟩
              rfl
            · exact full pair member
          · refine ⟨fun _ failure => (by cases failure), ?_⟩
            intro result bf' fd' again
            rw [written] at again
            cases again
            exact untorn
      | flush =>
          have length := tracks.wellFormed.length_pending
          have whole := flawless.not_tears tracks.usable length
          have next := tracks.flush whole
          rcases flawless.flush length with ⟨fd₁, flush, flawless₁⟩
          rw [flush] at next
          have nextRest : Tracks false (writtenBytes rest).length
              { bf with writeBufferPos := 0 } fd₁
              (flushed bf.preappend ideal pending) [] := next
          have flawlessRest :
              Flawless { bf with writeBufferPos := 0 }.preappend fd₁ :=
            flawless₁
          rcases induction flawlessRest nextRest later with
            ⟨replies, bf₂, fd₂, run, full, untorn, flawless₂, wellFormed₂⟩
          refine ⟨.status 0 :: replies, bf₂, fd₂, ?_, ?_, ⟨whole, ?_⟩,
            flawless₂, wellFormed₂⟩
          · simp [bufferedCalls, bufferedCall, flush, run]
          · intro pair member
            rcases List.mem_cons.mp member with rfl | member
            · rintro _ ⟨⟩
            · exact full pair member
          · rw [flush]
            exact untorn

theorem Flawless.close {bf : BufferedFile} {fd : OpenFile Byte}
    (flawless : Flawless bf.preappend fd) (wellFormed : WellFormed bf) :
    (bufferedClose bf fd).1 = 0 := by
  rw [bufferedClose_eq wellFormed flawless]

/-! ## Whole sessions -/

/-- No flush of the session stores something and fails. -/
def UntornSession (heap : Heap) (file : Option (List Byte)) (flags : Flags)
    (outcomes : List Outcome) (calls : List Call) : Prop :=
  ∀ bf fd, bufferedOpen heap file flags outcomes = some (bf, fd) →
    Untorn false calls bf fd

/-- What an opened file is like. -/
theorem openFile_cases {file : Option (List Byte)} {flags : Flags}
    {outcomes : List Outcome} {fd : OpenFile Byte}
    (opened : openFile file flags outcomes = some fd) :
    fd.offset = 0 ∧
      fd.writable =
        (flags.accmode == O_WRONLY || flags.accmode == O_RDWR) ∧
      fd.readable =
        (flags.accmode == O_RDONLY || flags.accmode == O_RDWR) ∧
      fd.append = flags.has O_APPEND ∧ fd.outcomes = outcomes.tail ∧
      openFile file flags [] = some { fd with outcomes := [] } := by
  unfold openFile at opened ⊢
  split at opened
  · cases opened
  · rw [if_neg (by simp)]
    cases file with
    | some content =>
        cases opened
        exact ⟨rfl, rfl, rfl, rfl, rfl, rfl⟩
    | none =>
        dsimp only at opened ⊢
        split at opened
        · rename_i creates
          rw [if_pos creates]
          cases opened
          exact ⟨rfl, rfl, rfl, rfl, rfl, rfl⟩
        · cases opened

theorem inside_opened {file : Option (List Byte)} {flags : Flags}
    {outcomes : List Outcome} {fd : OpenFile Byte}
    (opened : openFile file flags outcomes = some fd) : Inside fd := by
  unfold Inside OpenFile.writePosition
  rw [(openFile_cases opened).1]
  split
  · exact Nat.le_refl _
  · exact Nat.zero_le _

/-- `buffered_open` keeps write access. -/
theorem accmode_systemFlags {flags : Flags}
    (access : flags.accmode = O_WRONLY ∨ flags.accmode = O_RDWR) :
    (systemFlags flags).accmode = O_WRONLY ∨
      (systemFlags flags).accmode = O_RDWR := by
  by_cases preappend : flags.has O_PREAPPEND = true
  · exact .inr (accmode_systemFlags_of_preappend preappend access)
  · have same : systemFlags flags = flags := by
      rw [systemFlags, if_neg preappend]
    rw [same]
    exact access

theorem writable_opened {file : Option (List Byte)} {flags : Flags}
    {outcomes : List Outcome} {fd : OpenFile Byte}
    (access : flags.accmode = O_WRONLY ∨ flags.accmode = O_RDWR)
    (opened : openFile file (systemFlags flags) outcomes = some fd) :
    fd.writable = true := by
  rw [(openFile_cases opened).2.1]
  rcases accmode_systemFlags access with writeOnly | readWrite
  · simp [writeOnly]
  · simp [readWrite]

theorem tracks_opened {heap : Heap} {file : Option (List Byte)}
    {flags : Flags} {outcomes : List Outcome} {bf : BufferedFile}
    {fd : OpenFile Byte} {coming : Nat}
    (access : flags.accmode = O_WRONLY ∨ flags.accmode = O_RDWR)
    (small : coming ≤ BUFFER_SIZE)
    (opened : bufferedOpen heap file flags outcomes = some (bf, fd)) :
    Tracks false coming bf fd fd [] := by
  rcases wellFormed_opened opened with
    ⟨wellFormed, empty, _, mode, openedFile⟩
  have usable : Usable bf.preappend fd :=
    ⟨writable_opened access openedFile, fun _ => inside_opened openedFile⟩
  constructor
  case wellFormed => exact wellFormed
  case usable => exact usable
  case usableIdeal => exact usable
  case room =>
    rw [empty, List.length_nil]
    omega
  case view =>
    rw [empty]
    exact .refl _ _
  case together => exact fun _ _ _ => ⟨.refl _ _, empty⟩

/-- The file that a session leaves, if it reports success and no flush of it
has stored something and failed. -/
theorem session_settled {heap : Heap} {file : Option (List Byte)}
    {flags : Flags} {outcomes : List Outcome} {calls : List Call}
    {replies : List Reply} {content : List Byte}
    (access : flags.accmode = O_WRONLY ∨ flags.accmode = O_RDWR)
    (writeOnly : WriteOnly calls)
    (small : (writtenBytes calls).length ≤ BUFFER_SIZE)
    (ran : bufferedSession heap file flags outcomes calls =
      some (replies, 0, content))
    (full : FullCounts calls replies)
    (untorn : UntornSession heap file flags outcomes calls) :
    ∃ bf fd, bufferedOpen heap file flags outcomes = some (bf, fd) ∧
      content = (settled bf.preappend fd [] calls).content := by
  unfold bufferedSession at ran
  split at ran
  · cases ran
  · rename_i bf fd opened
    refine ⟨bf, fd, opened, ?_⟩
    rcases Option.map_eq_some_iff.mp ran with
      ⟨⟨replies₁, bf', fd'⟩, run, equal⟩
    have closed : bufferedClose bf' fd' =
        ((bufferedClose bf' fd').1, (bufferedClose bf' fd').2) := rfl
    simp only [Prod.mk.injEq] at equal
    rcases equal with ⟨rfl, success, rfl⟩
    rw [success] at closed
    rcases (tracks_opened access small opened).calls writeOnly run full
      (untorn bf fd opened) with
      ⟨failed, ideal, pending, tracks, untornEnd, mode, equal⟩
    rw [equal, ← mode]
    exact tracks.close untornEnd closed

theorem Like.settled {preappend : Bool} {fd other : OpenFile Byte}
    (like : Like preappend fd other) (pending : List Byte)
    (calls : List Call) :
    Like preappend (settled preappend fd pending calls)
      (settled preappend other pending calls) := by
  induction calls generalizing fd other pending with
  | nil => exact like.flushed pending
  | cons call rest induction =>
      cases call with
      | read count => exact induction like pending
      | write data => exact induction like (pending ++ data)
      | flush => exact induction (like.flushed pending) []

/-- A file opened for writing on which every call succeeds. -/
theorem flawless_opened {heap : Heap} {file : Option (List Byte)}
    {flags : Flags} {bf : BufferedFile} {fd : OpenFile Byte}
    (access : flags.accmode = O_WRONLY ∨ flags.accmode = O_RDWR)
    (opened : bufferedOpen heap file flags [] = some (bf, fd)) :
    Flawless bf.preappend fd := by
  rcases wellFormed_opened opened with ⟨_, _, _, mode, openedFile⟩
  rcases openFile_cases openedFile with ⟨_, _, readable, _, outcomes, _⟩
  refine ⟨outcomes, writable_opened access openedFile, ?_⟩
  intro preappend
  rw [readable, accmode_systemFlags_of_preappend (mode.symm.trans preappend)
    access]
  decide

/-- `buffered_open` finds the same file whatever the later calls do. -/
theorem bufferedOpen_nil {heap : Heap} {file : Option (List Byte)}
    {flags : Flags} {outcomes : List Outcome} {bf : BufferedFile}
    {fd : OpenFile Byte}
    (opened : bufferedOpen heap file flags outcomes = some (bf, fd)) :
    bufferedOpen heap file flags [] =
      some (bf, { fd with outcomes := [] }) := by
  rcases wellFormed_opened opened with ⟨_, _, _, _, openedFile⟩
  rcases openFile_cases openedFile with ⟨_, _, _, _, _, again⟩
  unfold bufferedOpen at opened ⊢
  rw [openedFile] at opened
  rw [again]
  split at opened
  · cases opened
  · rename_i header
    rw [if_neg header]
    dsimp only at opened ⊢
    split at opened
    · simp only [Option.some.injEq, Prod.mk.injEq, and_true] at opened ⊢
      exact opened
    · cases opened

/-- The session can also be run with every call succeeding. -/
theorem exists_flawless_session {heap : Heap} {file : Option (List Byte)}
    {flags : Flags} {outcomes : List Outcome} {calls : List Call}
    {bf : BufferedFile} {fd : OpenFile Byte}
    (access : flags.accmode = O_WRONLY ∨ flags.accmode = O_RDWR)
    (writeOnly : WriteOnly calls)
    (small : (writtenBytes calls).length ≤ BUFFER_SIZE)
    (opened : bufferedOpen heap file flags outcomes = some (bf, fd)) :
    ∃ replies, bufferedSession heap file flags [] calls =
      some (replies, 0, (settled bf.preappend fd [] calls).content) := by
  have reopened := bufferedOpen_nil opened
  have flawless := flawless_opened access reopened
  have tracks := tracks_opened access small reopened
  rcases flawless.calls tracks writeOnly with
    ⟨replies, bf', fd', run, full, untorn, flawless', wellFormed'⟩
  have ran : bufferedSession heap file flags [] calls =
      some (replies, 0, (bufferedClose bf' fd').2.content) := by
    have closed := flawless'.close wellFormed'
    unfold bufferedSession
    rw [reopened]
    dsimp only
    rw [run]
    simp [← closed]
  have untornSession : UntornSession heap file flags [] calls := by
    intro bf₁ fd₁ opened₁
    rw [reopened] at opened₁
    cases opened₁
    exact untorn
  rcases session_settled access writeOnly small ran full untornSession with
    ⟨bf₁, fd₁, opened₁, equal⟩
  rw [reopened] at opened₁
  cases opened₁
  have like : Like bf.preappend { fd with outcomes := [] } fd :=
    ⟨rfl, rfl, rfl, rfl, fun _ _ => rfl⟩
  refine ⟨replies, ?_⟩
  rw [ran, equal, (like.settled [] calls).content]

end OSCourse.BufferedIo
