import OSCourse.BufferedIo.Preappend

/-!
# Flushes that fail

A failed `buffered_flush` keeps the whole buffer, and the next one writes it
again from its start.  That is harmless when the failed flush stored nothing.
When it stored part of its data, or overwrote the old content and could not
write it back, bytes are repeated or lost although the session ends with
success.
-/

namespace OSCourse.BufferedIo

open OSCourse.Library.PosixFile
open Flags

/-! ## Files up to what a flush depends on -/

/--
Two files on which the coming flushes have the same effect: with `O_APPEND`, or
when a flush seeks for itself, the offset does not matter.
-/
structure Like (preappend : Bool) (fd other : OpenFile Byte) : Prop where
  content : fd.content = other.content
  append : fd.append = other.append
  readable : fd.readable = other.readable
  writable : fd.writable = other.writable
  offset : preappend = false → other.append = false →
    fd.offset = other.offset

theorem Like.refl (preappend : Bool) (fd : OpenFile Byte) :
    Like preappend fd fd :=
  ⟨rfl, rfl, rfl, rfl, fun _ _ => rfl⟩

theorem Like.symm {preappend : Bool} {fd other : OpenFile Byte}
    (like : Like preappend fd other) : Like preappend other fd :=
  ⟨like.content.symm, like.append.symm, like.readable.symm,
    like.writable.symm, fun normal plain =>
      (like.offset normal (like.append.symm.trans plain)).symm⟩

theorem Like.trans {preappend : Bool} {first second third : OpenFile Byte}
    (left : Like preappend first second)
    (right : Like preappend second third) : Like preappend first third :=
  ⟨left.content.trans right.content, left.append.trans right.append,
    left.readable.trans right.readable, left.writable.trans right.writable,
    fun normal plain => (left.offset normal (right.append.trans plain)).trans
      (right.offset normal plain)⟩

theorem like_advance (preappend : Bool) (fd : OpenFile Byte) :
    Like preappend fd.advance fd :=
  ⟨rfl, rfl, rfl, rfl, fun _ _ => rfl⟩

theorem Like.writePosition {fd other : OpenFile Byte}
    (like : Like false fd other) : fd.writePosition = other.writePosition := by
  unfold OpenFile.writePosition
  rw [like.append, like.content]
  split
  · rfl
  · rename_i plain
    exact like.offset rfl (by simpa using plain)

theorem Like.store {fd other : OpenFile Byte} (like : Like false fd other)
    {data : List Byte} {same : List Byte} (equal : data = same) :
    Like false (fd.store data) (other.store same) := by
  subst equal
  refine ⟨?_, like.append, like.readable, like.writable, fun _ _ => ?_⟩
  · simp only [OpenFile.store, like.content, like.writePosition]
  · simp only [OpenFile.store, like.writePosition]

theorem Like.rewind {preappend : Bool} {fd other : OpenFile Byte}
    (like : Like preappend fd other) :
    Like false { fd with offset := 0 } { other with offset := 0 } :=
  ⟨like.content, like.append, like.readable, like.writable, fun _ _ => rfl⟩

theorem Like.weaken {fd other : OpenFile Byte} (like : Like false fd other) :
    Like true fd other :=
  ⟨like.content, like.append, like.readable, like.writable,
    fun normal => by cases normal⟩

theorem Like.prepended {preappend : Bool} {fd other : OpenFile Byte}
    (like : Like preappend fd other) (data : List Byte) :
    Like true (prepended fd data) (prepended other data) := by
  have written := like.rewind.store (Eq.refl data)
  unfold BufferedIo.prepended
  by_cases empty : other.content = []
  · rw [if_pos empty, if_pos (like.content.trans empty)]
    exact written.weaken
  · have filled : fd.content ≠ [] := by
      rw [like.content]
      exact empty
    rw [if_neg empty, if_neg filled]
    exact (written.store like.content).weaken

theorem Like.flushed {preappend : Bool} {fd other : OpenFile Byte}
    (like : Like preappend fd other) (data : List Byte) :
    Like preappend (flushed preappend fd data)
      (flushed preappend other data) := by
  unfold BufferedIo.flushed
  split
  · exact like
  · cases preappend with
    | false => exact like.store rfl
    | true => exact like.prepended data

/-- The next `write` leaves no gap. -/
def Inside (fd : OpenFile Byte) : Prop :=
  fd.writePosition ≤ fd.content.length

theorem writePosition_store (fd : OpenFile Byte) (data : List Byte) :
    (fd.store data).writePosition = fd.writePosition + data.length := by
  by_cases appends : fd.append = true
  · simp [OpenFile.store, OpenFile.writePosition, appends]
  · simp [OpenFile.store, OpenFile.writePosition, appends]

theorem Inside.store {fd : OpenFile Byte} (inside : Inside fd)
    (data : List Byte) : Inside (fd.store data) := by
  have length := length_overwrite inside data
  rw [Inside, writePosition_store fd data]
  show _ ≤ (overwrite fd.content fd.writePosition data).length
  omega

/-- Storing nothing. -/
theorem like_store_nil {fd : OpenFile Byte} (inside : Inside fd) :
    Like false (fd.store []) fd := by
  refine ⟨overwrite_nil inside, rfl, rfl, rfl, ?_⟩
  intro _ plain
  simp [OpenFile.store, OpenFile.writePosition, plain]

/-- Two flushes in a row store what one flush of both pieces stores. -/
theorem like_store_store {fd : OpenFile Byte} (inside : Inside fd)
    (first second : List Byte) :
    Like false ((fd.store first).store second)
      (fd.store (first ++ second)) := by
  have next := writePosition_store fd first
  have joined := overwrite_overwrite inside first second
  refine ⟨?_, rfl, rfl, rfl, fun _ _ => ?_⟩
  · show overwrite (overwrite fd.content fd.writePosition first)
      (fd.store first).writePosition second = _
    rw [next, joined]
    rfl
  · show (fd.store first).writePosition + second.length = _
    rw [next]
    simp only [OpenFile.store, List.length_append]
    omega

/-! ## What a call of `write` stores -/

/-- How many of `count` bytes a `write` with this outcome stores. -/
def storedCount (outcome : Outcome) (count : Nat) : Nat :=
  match outcome with
  | .full => count
  | .short limit => min limit count
  | .error => 0

/-- A `write` stores all its data, or returns something else than their
number; when it stores nothing, the file is as before. -/
theorem write_cases {fd : OpenFile Byte} (writable : fd.writable = true)
    {data : List Byte} (some : data ≠ []) :
    (storedCount fd.outcome data.length = data.length ∧
        fd.write data = ((data.length : Int), fd.advance.store data)) ∨
      (storedCount fd.outcome data.length < data.length ∧
        (fd.write data).1 ≠ data.length ∧
        (storedCount fd.outcome data.length = 0 → Inside fd →
          Like false (fd.write data).2 fd)) := by
  have positive : 0 < data.length := List.length_pos_iff.mpr some
  cases outcome : fd.outcome with
  | full =>
      left
      simp [storedCount, OpenFile.write, writable, outcome,
        OpenFile.writeLimit]
  | error =>
      right
      refine ⟨positive, ?_, fun _ _ => ?_⟩
      · simp only [OpenFile.write, outcome, or_true, if_true]
        omega
      · simp only [OpenFile.write, outcome, or_true, if_true]
        exact like_advance false fd
  | short limit =>
      have written : fd.write data = (((data.take limit).length : Int),
          fd.advance.store (data.take limit)) := by
        simp [OpenFile.write, writable, outcome, OpenFile.writeLimit]
      rw [written]
      by_cases enough : data.length ≤ limit
      · left
        rw [List.take_of_length_le enough]
        exact ⟨Nat.min_eq_right enough, rfl⟩
      · right
        refine ⟨?_, ?_, ?_⟩
        · simp only [storedCount]
          omega
        · simp only [List.length_take]
          omega
        · intro nothing inside
          simp only [storedCount] at nothing
          have none : limit = 0 := by omega
          rw [none, List.take_zero]
          have stored : Like false (fd.advance.store []) fd.advance :=
            like_store_nil inside
          exact stored.trans (like_advance false fd)

/-! ## Flushes that store something and fail -/

/-- The part of a preappend flush before its first `write`: the old content, if
every call succeeded. -/
def reachWrite (fd : OpenFile Byte) : Option (List Byte) × OpenFile Byte :=
  match fd.lseek 0 .end with
  | (none, fd) => (none, fd)
  | (some fileLen, fd) =>
      match readExisting fd fileLen with
      | (none, fd) => (none, fd)
      | (some tempBuf, fd) =>
          match fd.lseek 0 .set with
          | (none, fd) => (none, fd)
          | (some _, fd) => (some tempBuf, fd)

/-- One of the calls of `write` of a preappend flush is short, and the first
one stores some bytes. -/
def TearsBack (fd : OpenFile Byte) (data tempBuf : List Byte) : Prop :=
  0 < storedCount fd.outcome data.length ∧
    (storedCount fd.outcome data.length < data.length ∨
      storedCount fd.advance.outcome tempBuf.length < tempBuf.length)

/-- The flush of `data` stores some bytes and fails, by the outcomes of its
calls of `write`. -/
def Tears (preappend : Bool) (fd : OpenFile Byte) (data : List Byte) :
    Prop :=
  if preappend then
    match reachWrite fd with
    | (none, _) => False
    | (some tempBuf, fd) => TearsBack fd data tempBuf
  else
    0 < storedCount fd.outcome data.length ∧
      storedCount fd.outcome data.length < data.length

theorem storedCount_zero (outcome : Outcome) : storedCount outcome 0 = 0 := by
  cases outcome <;> simp [storedCount]

theorem not_tears_nil (preappend : Bool) (fd : OpenFile Byte) :
    ¬ Tears preappend fd [] := by
  unfold Tears
  split
  · split
    · exact not_false
    · simp [TearsBack, storedCount_zero]
  · simp

theorem lseek_cases {fd next : OpenFile Byte} {distance : Nat}
    {whence : OpenFile.Whence} {result : Option Nat}
    (called : fd.lseek distance whence = (result, next)) :
    Like true next fd ∧ ∀ target, result = some target →
      next.offset = target ∧ (whence = .set → target = distance) ∧
        (whence = .end → target = fd.content.length + distance) := by
  unfold OpenFile.lseek at called
  split at called
  · cases called
    exact ⟨like_advance true fd, by simp⟩
  · cases called
    refine ⟨⟨rfl, rfl, rfl, rfl, fun normal => by cases normal⟩, ?_⟩
    rintro _ ⟨⟩
    refine ⟨rfl, ?_, ?_⟩
    · rintro rfl
      rfl
    · rintro rfl
      rfl

theorem read_cases {fd next : OpenFile Byte} {count : Nat}
    {result : Option (List Byte)}
    (called : fd.read count = (result, next)) :
    Like true next fd ∧ ∀ delivered, result = some delivered →
      ∃ limit, delivered = (fd.content.drop fd.offset).take limit := by
  unfold OpenFile.read at called
  split at called
  · cases called
    exact ⟨like_advance true fd, by simp⟩
  · cases called
    refine ⟨⟨rfl, rfl, rfl, rfl, fun normal => by cases normal⟩, ?_⟩
    rintro _ ⟨⟩
    exact ⟨_, rfl⟩

/-- What was read of the old content is all of it. -/
theorem readExisting_cases {fd next : OpenFile Byte} {fileLen : Nat}
    {result : Option (List Byte)} (length : fileLen = fd.content.length)
    (called : readExisting fd fileLen = (result, next)) :
    Like true next fd ∧ ∀ tempBuf, result = some tempBuf →
      tempBuf = fd.content := by
  unfold readExisting at called
  split at called
  · rename_i empty
    cases called
    refine ⟨.refl true fd, ?_⟩
    rintro _ ⟨⟩
    rw [length] at empty
    exact (List.length_eq_zero_iff.mp empty).symm
  · split at called
    · cases called
      exact ⟨like_advance true fd, by simp⟩
    · split at called
      · rename_i fdSet seek
        cases called
        exact ⟨(lseek_cases seek).1.trans (like_advance true fd), by simp⟩
      · rename_i target fdSet seek
        rcases lseek_cases seek with ⟨likeSet, moved⟩
        rcases moved target rfl with ⟨offset, atStart, _⟩
        have likeFd := likeSet.trans (like_advance true fd)
        split at called
        · rename_i fdRead reading
          cases called
          exact ⟨(read_cases reading).1.trans likeFd, by simp⟩
        · rename_i tempBuf fdRead reading
          rcases read_cases reading with ⟨likeRead, delivered⟩
          rcases delivered tempBuf rfl with ⟨limit, bytes⟩
          split at called
          · cases called
            exact ⟨likeRead.trans likeFd, by simp⟩
          · rename_i complete
            cases called
            refine ⟨likeRead.trans likeFd, ?_⟩
            rintro _ ⟨⟩
            rw [offset, atStart rfl, List.drop_zero, likeFd.content] at bytes
            have enough : fd.content.length ≤ limit := by
              have counted := congrArg List.length bytes
              rw [List.length_take] at counted
              omega
            rw [bytes, List.take_of_length_le enough]

theorem reachWrite_cases {fd next : OpenFile Byte}
    {result : Option (List Byte)} (called : reachWrite fd = (result, next)) :
    Like true next fd ∧ ∀ tempBuf, result = some tempBuf →
      tempBuf = fd.content ∧ next.offset = 0 := by
  unfold reachWrite at called
  split at called
  · rename_i fdEnd seek
    cases called
    exact ⟨(lseek_cases seek).1, by simp⟩
  · rename_i fileLen fdEnd seek
    rcases lseek_cases seek with ⟨likeEnd, moved⟩
    have length := (moved fileLen rfl).2.2 rfl
    rw [Nat.add_zero, ← likeEnd.content] at length
    split at called
    · rename_i fdRead reading
      cases called
      exact ⟨(readExisting_cases length reading).1.trans likeEnd, by simp⟩
    · rename_i tempBuf fdRead reading
      rcases readExisting_cases length reading with ⟨likeRead, bytes⟩
      split at called
      · rename_i fdSet seekSet
        cases called
        exact ⟨(lseek_cases seekSet).1.trans (likeRead.trans likeEnd),
          by simp⟩
      · rename_i target fdSet seekSet
        cases called
        rcases lseek_cases seekSet with ⟨likeSet, movedSet⟩
        rcases movedSet target rfl with ⟨offset, atStart, _⟩
        refine ⟨likeSet.trans (likeRead.trans likeEnd), ?_⟩
        rintro _ ⟨⟩
        rw [bytes tempBuf rfl, likeEnd.content]
        exact ⟨rfl, offset.trans (atStart rfl)⟩

/-- The calls of `write` of a preappend flush. -/
def writeBack (fd : OpenFile Byte) (data tempBuf : List Byte) :
    Bool × OpenFile Byte :=
  let (written, fd) := fd.write data
  if written ≠ data.length then
    (false, fd)
  else if 0 < tempBuf.length then
    let (written, fd) := fd.write tempBuf
    (written = tempBuf.length, fd)
  else
    (true, fd)

theorem preappendFlush_reachWrite (fd : OpenFile Byte) (data : List Byte) :
    preappendFlush fd data =
      match reachWrite fd with
      | (none, fd) => (false, fd)
      | (some tempBuf, fd) => writeBack fd data tempBuf := by
  unfold preappendFlush reachWrite
  cases seek : fd.lseek 0 .end with
  | mk target fdEnd =>
      cases target with
      | none => rfl
      | some fileLen =>
          rcases lseek_cases seek with ⟨likeEnd, moved⟩
          have length := (moved fileLen rfl).2.2 rfl
          rw [Nat.add_zero, ← likeEnd.content] at length
          dsimp only
          cases reading : readExisting fdEnd fileLen with
          | mk result fdRead =>
              cases result with
              | none => rfl
              | some tempBuf =>
                  have bytes := (readExisting_cases length reading).2 _ rfl
                  dsimp only
                  cases seekSet : fdRead.lseek 0 .set with
                  | mk target fdSet =>
                      cases target with
                      | none => rfl
                      | some target =>
                          dsimp only [writeBack]
                          rw [length, ← bytes]

theorem writeBack_cases {fd : OpenFile Byte} (writable : fd.writable = true)
    (atStart : fd.offset = 0) {data : List Byte} (some : data ≠ []) :
    ((writeBack fd data fd.content).1 = true ∧
        Like true (writeBack fd data fd.content).2 (prepended fd data) ∧
        ¬ TearsBack fd data fd.content) ∨
      ((writeBack fd data fd.content).1 = false ∧
        (¬ TearsBack fd data fd.content →
          Like true (writeBack fd data fd.content).2 fd)) := by
  have positive : 0 < data.length := List.length_pos_iff.mpr some
  have inside : Inside fd := by
    unfold Inside OpenFile.writePosition
    split
    · exact Nat.le_refl _
    · rw [atStart]
      exact Nat.zero_le _
  have rewound : { fd with offset := 0 } = fd := by
    cases fd
    simp_all
  have likeData : Like false (fd.advance.store data) (fd.store data) :=
    (like_advance false fd).store rfl
  rcases write_cases writable some with ⟨all, written⟩ | ⟨few, short, kept⟩
  · by_cases empty : fd.content = []
    · left
      have result : writeBack fd data fd.content =
          (true, fd.advance.store data) := by
        simp [writeBack, written, empty]
      rw [result]
      refine ⟨rfl, ?_, ?_⟩
      · rw [prepended, if_pos empty, rewound]
        exact likeData.weaken
      · rintro ⟨_, few | few⟩
        · omega
        · simp [empty] at few
    · have old : 0 < fd.content.length := List.length_pos_iff.mpr empty
      have still : (fd.advance.store data).writable = true := writable
      have second := write_cases still empty
      have result : writeBack fd data fd.content =
          (decide (((fd.advance.store data).write fd.content).1 =
              (fd.content.length : Int)),
            ((fd.advance.store data).write fd.content).2) := by
        simp [writeBack, written, old]
      rw [result]
      rcases second with ⟨secondAll, secondWritten⟩ | ⟨few, short, _⟩
      · left
        rw [secondWritten, prepended, if_neg empty, rewound]
        refine ⟨by simp, ?_, ?_⟩
        · refine ((like_advance false _).store rfl).weaken.trans ?_
          exact (likeData.store rfl).weaken
        · rintro ⟨_, few | few⟩
          · omega
          · exact absurd secondAll (Nat.ne_of_lt few)
      · right
        refine ⟨by simpa using short, ?_⟩
        intro untorn
        exact absurd ⟨by omega, .inr few⟩ untorn
  · right
    have result : writeBack fd data fd.content =
        (false, (fd.write data).2) := by
      simp [writeBack, short]
    rw [result]
    refine ⟨rfl, ?_⟩
    intro untorn
    refine (kept ?_ inside).weaken
    by_contra stored
    exact untorn ⟨by omega, .inl few⟩

/-- What a file must allow. -/
structure Usable (preappend : Bool) (fd : OpenFile Byte) : Prop where
  writable : fd.writable = true
  inside : preappend = false → Inside fd

/-- A flush has the effect `flushed`, or it fails; a failed flush that has
stored nothing leaves the file as it was. -/
theorem bufferedFlush_cases {bf : BufferedFile} {fd : OpenFile Byte}
    (usable : Usable bf.preappend fd)
    (length : bf.pending.length = bf.writeBufferPos) :
    (∃ next, bufferedFlush bf fd =
          (0, { bf with writeBufferPos := 0 }, next) ∧
        Like bf.preappend next (flushed bf.preappend fd bf.pending) ∧
        ¬ Tears bf.preappend fd bf.pending) ∨
      (∃ next, bufferedFlush bf fd = (-1, bf, next) ∧
        (¬ Tears bf.preappend fd bf.pending →
          Like bf.preappend next fd)) := by
  unfold bufferedFlush
  by_cases empty : bf.writeBufferPos = 0
  · left
    refine ⟨fd, ?_, ?_, ?_⟩
    · rw [if_pos empty]
      cases bf
      simp_all
    · rw [flushed, if_pos (pending_eq_nil empty)]
      exact .refl _ fd
    · rw [pending_eq_nil empty]
      exact not_tears_nil bf.preappend fd
  · have nonempty : bf.pending ≠ [] := by
      intro none
      simp [none] at length
      omega
    rw [if_neg empty, flushed, if_neg nonempty]
    cases mode : bf.preappend with
    | false =>
        rw [mode] at usable
        rcases write_cases usable.writable nonempty with
          ⟨all, written⟩ | ⟨few, short, kept⟩
        · left
          refine ⟨fd.advance.store bf.pending, ?_, ?_, ?_⟩
          · simp [normalFlush, written]
          · exact (like_advance false fd).store rfl
          · rintro ⟨_, few⟩
            omega
        · right
          refine ⟨(fd.write bf.pending).2, ?_, ?_⟩
          · simp [normalFlush, short]
          · intro untorn
            refine kept ?_ (usable.inside rfl)
            by_contra stored
            exact untorn ⟨by omega, few⟩
    | true =>
        rw [mode] at usable
        have reach := preappendFlush_reachWrite fd bf.pending
        cases reached : reachWrite fd with
        | mk result next =>
            rcases reachWrite_cases reached with ⟨like, found⟩
            rw [reached] at reach
            cases result with
            | none =>
                right
                refine ⟨next, ?_, fun _ => like⟩
                simp [reach]
            | some tempBuf =>
                rcases found tempBuf rfl with ⟨bytes, atStart⟩
                rw [bytes, ← like.content] at reach
                dsimp only at reach
                have writable : next.writable = true :=
                  like.writable.trans usable.writable
                rcases writeBack_cases writable atStart nonempty with
                  ⟨success, effect, whole⟩ | ⟨failure, kept⟩
                · left
                  refine ⟨_, ?_, effect.trans (like.prepended _), ?_⟩
                  · simp [reach, success]
                  · simpa [Tears, reached, bytes, like.content] using whole
                · right
                  refine ⟨(writeBack next bf.pending next.content).2, ?_, ?_⟩
                  · simp [reach, failure]
                  · intro untorn
                    refine (kept ?_).trans like
                    simpa [Tears, reached, bytes, like.content] using untorn

theorem Usable.like {preappend : Bool} {fd other : OpenFile Byte}
    (usable : Usable preappend other) (like : Like preappend fd other) :
    Usable preappend fd := by
  refine ⟨like.writable.trans usable.writable, ?_⟩
  rintro rfl
  rw [Inside, like.writePosition, like.content]
  exact usable.inside rfl

theorem Usable.flushed {preappend : Bool} {fd : OpenFile Byte}
    (usable : Usable preappend fd) (data : List Byte) :
    Usable preappend (flushed preappend fd data) := by
  unfold BufferedIo.flushed
  split
  · exact usable
  · cases preappend with
    | false => exact ⟨usable.writable, fun _ => (usable.inside rfl).store data⟩
    | true =>
        refine ⟨?_, fun normal => by cases normal⟩
        show (prepended fd data).writable = true
        unfold prepended
        split
        · exact usable.writable
        · exact usable.writable

/-- In normal mode two flushes do what one flush of both pieces does. -/
theorem like_flushed_flushed {fd : OpenFile Byte} (usable : Usable false fd)
    (first second : List Byte) :
    Like false (flushed false (flushed false fd first) second)
      (flushed false fd (first ++ second)) := by
  have like := like_store_store (usable.inside rfl) first second
  unfold flushed
  by_cases noFirst : first = []
  · rw [if_pos noFirst, noFirst, List.nil_append]
    exact .refl _ _
  · by_cases noSecond : second = []
    · rw [if_pos noSecond, noSecond, List.append_nil]
      exact .refl _ _
    · simpa [noFirst, noSecond] using like

/-! ## Calls -/

/-- A `buffered_write` that fits in the buffer makes one turn. -/
theorem bufferedWrite_fits {bf : BufferedFile} (fd : OpenFile Byte)
    {data : List Byte} (wellFormed : WellFormed bf) (some : data ≠ [])
    (fits : bf.writeBufferPos + data.length ≤ BUFFER_SIZE) :
    bufferedWrite bf fd data =
      if bf.writeBufferPos + data.length = BUFFER_SIZE then
        match bufferedFlush (copyIn bf data) fd with
        | (result, bf, fd) =>
            if result = -1 then .some (-1, bf, fd)
            else .some ((data.length : Int), bf, fd)
      else
        .some ((data.length : Int), copyIn bf data, fd) := by
  have size := wellFormed.writeSize
  have positive : 0 < data.length := List.length_pos_iff.mpr some
  have copied : min (data.length - 0)
      (bf.writeBufferSize - bf.writeBufferPos) = data.length := by
    omega
  have ends : ∀ bf fd, bufferedWriteLoop data (data.length + 1)
      (0 + data.length) bf fd = .some ((data.length : Int), bf, fd) := by
    intro bf fd
    rw [bufferedWriteLoop, if_neg (by omega), Nat.zero_add]
  have full : (copyIn bf data).writeBufferPos =
      (copyIn bf data).writeBufferSize ↔
        bf.writeBufferPos + data.length = BUFFER_SIZE := by
    show bf.writeBufferPos + data.length = bf.writeBufferSize ↔ _
    rw [size]
  rw [bufferedWrite, bufferedWriteLoop, if_pos positive]
  dsimp only
  rw [copied, List.drop_zero, List.take_length]
  simp only [ends, full]

theorem length_pending_copyIn {bf : BufferedFile} {data : List Byte}
    (wellFormed : WellFormed bf)
    (fits : bf.writeBufferPos + data.length ≤ BUFFER_SIZE) :
    (copyIn bf data).pending.length = (copyIn bf data).writeBufferPos := by
  rw [pending_copyIn wellFormed fits, List.length_append,
    wellFormed.length_pending]
  rfl

/-- A `buffered_write` that fits in the buffer and returns its count: the data
are pending, or they filled the buffer and were flushed. -/
theorem bufferedWrite_cases {bf bf' : BufferedFile} {fd fd' : OpenFile Byte}
    {data : List Byte} (wellFormed : WellFormed bf)
    (usable : Usable bf.preappend fd)
    (fits : bf.pending.length + data.length ≤ BUFFER_SIZE)
    (ran : bufferedWrite bf fd data = some ((data.length : Int), bf', fd')) :
    WellFormed bf' ∧ bf'.preappend = bf.preappend ∧
      ((bf'.pending = bf.pending ++ data ∧ fd' = fd) ∨
        (bf.pending.length + data.length = BUFFER_SIZE ∧ bf'.pending = [] ∧
          Like bf.preappend fd'
            (flushed bf.preappend fd (bf.pending ++ data)))) := by
  have position := wellFormed.length_pending
  rw [position] at fits
  by_cases empty : data = []
  · subst empty
    simp only [bufferedWrite, bufferedWriteLoop, List.length_nil,
      lt_irrefl, if_false, Option.some.injEq, Prod.mk.injEq] at ran
    rcases ran with ⟨_, rfl, rfl⟩
    exact ⟨wellFormed, rfl, .inl ⟨by simp, rfl⟩⟩
  · have pending := pending_copyIn wellFormed fits
    have length := length_pending_copyIn wellFormed fits
    rw [bufferedWrite_fits fd wellFormed empty fits] at ran
    split at ran
    · rename_i full
      have ready : Usable (copyIn bf data).preappend fd := usable
      rcases bufferedFlush_cases ready length with
        ⟨next, flush, like, _⟩ | ⟨next, flush, _⟩
      · rw [flush] at ran
        dsimp only at ran
        rw [if_neg (by decide)] at ran
        simp only [Option.some.injEq, Prod.mk.injEq, true_and] at ran
        rcases ran with ⟨rfl, rfl⟩
        refine ⟨wellFormed_copyIn_full wellFormed fits, rfl,
          .inr ⟨by omega, pending_eq_nil rfl, ?_⟩⟩
        rw [← pending]
        exact like
      · rw [flush] at ran
        simp only [if_true, Option.some.injEq, Prod.mk.injEq] at ran
        omega
    · rename_i notFull
      simp only [Option.some.injEq, Prod.mk.injEq, true_and] at ran
      rcases ran with ⟨rfl, rfl⟩
      exact ⟨wellFormed_copyIn wellFormed (by omega), rfl,
        .inl ⟨pending, rfl⟩⟩

end OSCourse.BufferedIo
