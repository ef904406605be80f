import Mathlib.Data.List.Basic

/-!
# Open files of a POSIX kernel

One open file description: the bytes of the file, the file offset, the access
rights and the `O_APPEND` mode, with `read`, `write` and `lseek` as POSIX
describes them.  A call may succeed in full, transfer fewer items than asked
for, or fail.  The outcome of the coming calls is a list; once it is exhausted
every call succeeds in full, so the empty list is the kernel in which nothing
goes wrong.

The module is generic in the items stored in the file.
-/

namespace OSCourse.Library.PosixFile

universe u

variable {Item : Type u}

/-! ## Overwriting a range of a list -/

/--
Store `data` at `offset`, replacing what stands there and extending the list
where it is too short.  A gap before `offset` is filled with the default item.
-/
def overwrite [Inhabited Item]
    (content : List Item) (offset : Nat) (data : List Item) : List Item :=
  content.take offset ++
    List.replicate (offset - content.length) default ++
    data ++ content.drop (offset + data.length)

section Overwrite

variable [Inhabited Item]

theorem overwrite_of_le
    {content : List Item} {offset : Nat}
    (inside : offset ≤ content.length) (data : List Item) :
    overwrite content offset data =
      content.take offset ++ (data ++ content.drop (offset + data.length)) := by
  have noGap : offset - content.length = 0 := by omega
  simp [overwrite, noGap]

theorem overwrite_nil
    {content : List Item} {offset : Nat}
    (inside : offset ≤ content.length) :
    overwrite content offset [] = content := by
  simp [overwrite_of_le inside]

@[simp]
theorem overwrite_zero (content data : List Item) :
    overwrite content 0 data = data ++ content.drop data.length := by
  simp [overwrite]

@[simp]
theorem overwrite_end (content data : List Item) :
    overwrite content content.length data = content ++ data := by
  simp [overwrite]

theorem length_overwrite
    {content : List Item} {offset : Nat}
    (inside : offset ≤ content.length) (data : List Item) :
    (overwrite content offset data).length =
      max content.length (offset + data.length) := by
  rw [overwrite_of_le inside]
  simp only [List.length_append, List.length_take, List.length_drop]
  omega

theorem getElem?_overwrite
    {content : List Item} {offset : Nat}
    (inside : offset ≤ content.length) (data : List Item) (place : Nat) :
    (overwrite content offset data)[place]? =
      if offset ≤ place ∧ place < offset + data.length then
        data[place - offset]?
      else content[place]? := by
  have start : (content.take offset).length = offset := by
    simp [inside]
  rw [overwrite_of_le inside, List.getElem?_append, start,
    List.getElem?_append, List.getElem?_drop, List.getElem?_take]
  by_cases before : place < offset
  · rw [if_pos before, if_pos before, if_neg (by omega)]
  · rw [if_neg before]
    by_cases covered : place - offset < data.length
    · rw [if_pos covered, if_pos (by omega)]
    · rw [if_neg covered, if_neg (by omega)]
      congr 1
      omega

/-- Two adjacent writes store what one write of both pieces stores. -/
theorem overwrite_overwrite
    {content : List Item} {offset : Nat}
    (inside : offset ≤ content.length) (first second : List Item) :
    overwrite (overwrite content offset first)
        (offset + first.length) second =
      overwrite content offset (first ++ second) := by
  have insideSecond :
      offset + first.length ≤ (overwrite content offset first).length := by
    rw [length_overwrite inside]
    omega
  rw [overwrite_of_le insideSecond, overwrite_of_le inside,
    overwrite_of_le inside]
  have takeLength : (content.take offset).length = offset := by
    simp [inside]
  have kept :
      (content.take offset ++
          (first ++ content.drop (offset + first.length))).take
          (offset + first.length) =
        content.take offset ++ first := by
    rw [← List.append_assoc]
    have size : (content.take offset ++ first).length =
        offset + first.length := by
      simp [inside]
    rw [← size, List.take_left]
  have dropped :
      (content.take offset ++
          (first ++ content.drop (offset + first.length))).drop
          (offset + first.length + second.length) =
        content.drop (offset + (first.length + second.length)) := by
    rw [← List.append_assoc, List.drop_append]
    have size : (content.take offset ++ first).length =
        offset + first.length := by
      simp [inside]
    rw [List.drop_eq_nil_of_le (by omega), size]
    simp only [List.nil_append, List.drop_drop]
    congr 1
    omega
  rw [kept, dropped]
  simp [List.append_assoc]

theorem overwrite_beyond
    {content : List Item} {offset : Nat}
    (beyond : content.length ≤ offset) (data : List Item) :
    overwrite content offset data =
      content ++ List.replicate (offset - content.length) default ++ data := by
  rw [overwrite, List.take_of_length_le beyond,
    List.drop_eq_nil_of_le (by omega), List.append_nil]

/-- Two adjacent writes store what one write stores, wherever they stand. -/
theorem overwrite_adjacent
    (content : List Item) (offset : Nat) (first second : List Item) :
    overwrite (overwrite content offset first)
        (offset + first.length) second =
      overwrite content offset (first ++ second) := by
  rcases Nat.le_total offset content.length with inside | beyond
  · exact overwrite_overwrite inside first second
  · have length : (overwrite content offset first).length =
        offset + first.length := by
      rw [overwrite_beyond beyond]
      simp only [List.length_append, List.length_replicate]
      omega
    rw [← length, overwrite_end, overwrite_beyond beyond,
      overwrite_beyond beyond, List.append_assoc]

/-- What stands behind the stored range is not touched. -/
theorem drop_overwrite
    {content : List Item} {offset : Nat}
    (inside : offset ≤ content.length) (data : List Item) :
    (overwrite content offset data).drop (offset + data.length) =
      content.drop (offset + data.length) := by
  rw [overwrite_of_le inside, ← List.append_assoc, List.drop_append]
  have size : (content.take offset ++ data).length =
      offset + data.length := by
    simp [inside]
  rw [List.drop_eq_nil_of_le (by omega), size]
  simp

/-- What stands before the stored range is not touched. -/
theorem getElem?_overwrite_of_lt
    {content : List Item} {offset position : Nat}
    (inside : offset ≤ content.length) (before : position < offset)
    (data : List Item) :
    (overwrite content offset data)[position]? = content[position]? := by
  rw [overwrite_of_le inside, List.getElem?_append_left (by simp; omega),
    List.getElem?_take_of_lt before]

/-- The stored range holds the data. -/
theorem getElem?_overwrite_of_mem
    {content : List Item} {offset : Nat}
    (inside : offset ≤ content.length) (data : List Item)
    (index : Nat) (bound : index < data.length) :
    (overwrite content offset data)[offset + index]? = data[index]? := by
  have takeLength : (content.take offset).length = offset := by
    simp [inside]
  rw [overwrite_of_le inside, List.getElem?_append_right (by omega),
    takeLength, Nat.add_sub_cancel_left, List.getElem?_append_left bound]

end Overwrite

/-! ## The open file description -/

/-- What the kernel makes of one system call. -/
inductive Outcome where
  | full
  | short (count : Nat)
  | error
deriving DecidableEq, Repr

/-- An open file, with the outcomes of the coming system calls. -/
structure OpenFile (Item : Type u) where
  content : List Item
  offset : Nat
  readable : Bool
  writable : Bool
  append : Bool
  outcomes : List Outcome

namespace OpenFile

/-- The outcome of the next call: full success when none is prescribed. -/
def outcome (file : OpenFile Item) : Outcome :=
  file.outcomes.headD .full

/-- The description once the next outcome has been used up. -/
def advance (file : OpenFile Item) : OpenFile Item :=
  { file with outcomes := file.outcomes.tail }

/-- The origin of an `lseek`. -/
inductive Whence where
  | set
  | «end»
deriving DecidableEq, Repr

/-- `lseek`: the new offset, or `none` for `-1`. -/
def lseek (file : OpenFile Item) (distance : Nat) (whence : Whence) :
    Option Nat × OpenFile Item :=
  if file.outcome = .error then
    (none, file.advance)
  else
    let target :=
      match whence with
      | .set => distance
      | .end => file.content.length + distance
    (some target, { file.advance with offset := target })

/-- How many items an outcome lets a `read` of `count` items deliver. -/
def readLimit (count : Nat) : Outcome → Nat
  | .full => count
  | .short limit => min count (max limit 1)
  | .error => 0

/-- `read`: the items delivered, or `none` for `-1`.  No item is the end. -/
def read (file : OpenFile Item) (count : Nat) :
    Option (List Item) × OpenFile Item :=
  if file.readable = false ∨ file.outcome = .error then
    (none, file.advance)
  else
    let delivered :=
      (file.content.drop file.offset).take (readLimit count file.outcome)
    (some delivered,
      { file.advance with offset := file.offset + delivered.length })

/-- How much of `data` an outcome lets a `write` store. -/
def writeLimit (data : List Item) : Outcome → List Item
  | .full => data
  | .short limit => data.take limit
  | .error => []

/-- Where a `write` stores its data. -/
def writePosition (file : OpenFile Item) : Nat :=
  if file.append then file.content.length else file.offset

/-- The file once `data` has been stored. -/
def store [Inhabited Item]
    (file : OpenFile Item) (data : List Item) : OpenFile Item :=
  { file with
    content := overwrite file.content file.writePosition data
    offset := file.writePosition + data.length }

/-- `write`: the number of items stored, or `-1`. -/
def write [Inhabited Item]
    (file : OpenFile Item) (data : List Item) : Int × OpenFile Item :=
  if file.writable = false ∨ file.outcome = .error then
    (-1, file.advance)
  else
    let stored := writeLimit data file.outcome
    (stored.length, file.advance.store stored)

/-! ## Calls that succeed in full -/

theorem outcome_of_nil
    {file : OpenFile Item} (prescribed : file.outcomes = []) :
    file.outcome = .full := by
  simp [outcome, prescribed]

theorem advance_of_nil
    {file : OpenFile Item} (prescribed : file.outcomes = []) :
    file.advance = file := by
  cases file
  simp_all [advance]

/-- No call on this file fails or stops short, and both accesses are allowed. -/
structure Reliable (file : OpenFile Item) : Prop where
  outcomes : file.outcomes = []
  readable : file.readable = true
  writable : file.writable = true

theorem Reliable.of_eq
    {file other : OpenFile Item} (reliable : Reliable file)
    (outcomes : other.outcomes = file.outcomes)
    (readable : other.readable = file.readable)
    (writable : other.writable = file.writable) :
    Reliable other :=
  ⟨outcomes.trans reliable.outcomes, readable.trans reliable.readable,
    writable.trans reliable.writable⟩

theorem Reliable.outcome_eq
    {file : OpenFile Item} (reliable : Reliable file) :
    file.outcome = .full :=
  outcome_of_nil reliable.outcomes

theorem Reliable.advance_eq
    {file : OpenFile Item} (reliable : Reliable file) :
    file.advance = file :=
  advance_of_nil reliable.outcomes

theorem Reliable.lseek_set
    {file : OpenFile Item} (reliable : Reliable file) (distance : Nat) :
    file.lseek distance .set =
      (some distance, { file with offset := distance }) := by
  simp [lseek, reliable.outcome_eq, reliable.advance_eq]

theorem Reliable.lseek_end
    {file : OpenFile Item} (reliable : Reliable file) :
    file.lseek 0 .end =
      (some file.content.length,
        { file with offset := file.content.length }) := by
  simp [lseek, reliable.outcome_eq, reliable.advance_eq]

theorem Reliable.read_eq
    {file : OpenFile Item} (reliable : Reliable file) (count : Nat) :
    file.read count =
      (some ((file.content.drop file.offset).take count),
        { file with
          offset := file.offset +
            ((file.content.drop file.offset).take count).length }) := by
  simp [read, reliable.outcome_eq, reliable.advance_eq,
    reliable.readable, readLimit]

theorem Reliable.write_eq [Inhabited Item]
    {file : OpenFile Item} (reliable : Reliable file) (data : List Item) :
    file.write data = ((data.length : Int), file.store data) := by
  simp [write, reliable.outcome_eq, reliable.advance_eq,
    reliable.writable, writeLimit]

theorem Reliable.store [Inhabited Item]
    {file : OpenFile Item} (reliable : Reliable file) (data : List Item) :
    Reliable (file.store data) :=
  reliable.of_eq rfl rfl rfl

theorem Reliable.seek
    {file : OpenFile Item} (reliable : Reliable file) (target : Nat) :
    Reliable { file with offset := target } :=
  reliable.of_eq rfl rfl rfl

end OpenFile

end OSCourse.Library.PosixFile
