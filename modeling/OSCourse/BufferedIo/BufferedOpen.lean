import Mathlib.Data.BitVec
import OSCourse.Library.PosixFile

/-!
# The buffered file layer

Embedding of `ex2/buffered_open.c`: a `buffered_file_t` holds a read buffer and
a write buffer of `BUFFER_SIZE` bytes over one file descriptor.  The descriptor
is the open file description of the POSIX library, passed beside the structure
and returned changed; a `NULL` structure is not modelled.

The two loops take fuel.  `none` means that the fuel ran out, and the results
about these functions show that it never does.
-/

namespace OSCourse.BufferedIo

open OSCourse.Library.PosixFile

/-- A `char` of the file. -/
abbrev Byte := UInt8

/-! ## Flags -/

/-- A flags word of `open`. -/
abbrev Flags := BitVec 32

namespace Flags

def O_ACCMODE : Flags := 0x3
def O_RDONLY : Flags := 0x0
def O_WRONLY : Flags := 0x1
def O_RDWR : Flags := 0x2
def O_CREAT : Flags := 0x40
def O_TRUNC : Flags := 0x200
def O_APPEND : Flags := 0x400
def O_PREAPPEND : Flags := 0x40000000

/-- `flags & flag` used as a condition. -/
def has (flags flag : Flags) : Bool :=
  flags &&& flag != 0

/-- The access mode of a flags word. -/
def accmode (flags : Flags) : Flags :=
  flags &&& O_ACCMODE

end Flags

open Flags

/-- `open(pathname, flags, mode)` on a file that is absent or has a content. -/
def openFile (file : Option (List Byte)) (flags : Flags)
    (outcomes : List Outcome) : Option (OpenFile Byte) :=
  if outcomes.headD .full = .error then
    none
  else
    let opened (content : List Byte) : OpenFile Byte :=
      { content := if flags.has O_TRUNC then [] else content
        offset := 0
        readable := flags.accmode == O_RDONLY || flags.accmode == O_RDWR
        writable := flags.accmode == O_WRONLY || flags.accmode == O_RDWR
        append := flags.has O_APPEND
        outcomes := outcomes.tail }
    match file with
    | some content => some (opened content)
    | none => if flags.has O_CREAT then some (opened []) else none

/-! ## The structure -/

/-- Capacity of each buffer. -/
def BUFFER_SIZE : Nat := 4096

/-- `buffered_file_t`, without the descriptor. -/
structure BufferedFile where
  readBuffer : List Byte
  writeBuffer : List Byte
  readBufferSize : Nat
  writeBufferSize : Nat
  readBufferPos : Nat
  writeBufferPos : Nat
  flags : Flags
  preappend : Bool

namespace BufferedFile

/-- The bytes that were written and not yet flushed. -/
def pending (bf : BufferedFile) : List Byte :=
  bf.writeBuffer.take bf.writeBufferPos

/-- The bytes that were read ahead and not yet delivered. -/
def leftover (bf : BufferedFile) : List Byte :=
  (bf.readBuffer.take bf.readBufferSize).drop bf.readBufferPos

end BufferedFile

/--
`memcpy(buffer + offset, source, source.length)`.  A copy past the end of the
buffer shows as a buffer that has grown.
-/
def memcpy (buffer : List Byte) (offset : Nat) (source : List Byte) :
    List Byte :=
  buffer.take offset ++ source ++ buffer.drop (offset + source.length)

/-- What the three calls of `malloc` in `buffered_open` return. -/
structure Heap where
  header : Bool
  readBuffer : Option (Fin BUFFER_SIZE → Byte)
  writeBuffer : Option (Fin BUFFER_SIZE → Byte)

/-- A heap on which every allocation succeeds, with any fresh contents. -/
def Heap.ample (readBuffer writeBuffer : Fin BUFFER_SIZE → Byte) : Heap :=
  ⟨true, some readBuffer, some writeBuffer⟩

/-- The flags that reach the operating system. -/
def systemFlags (flags : Flags) : Flags :=
  if flags.has O_PREAPPEND then
    let flags := flags &&& ~~~O_PREAPPEND
    if flags.accmode = O_WRONLY then
      (flags &&& ~~~O_WRONLY) ||| O_RDWR
    else
      flags
  else
    flags

/-- `buffered_open`; `none` is the `NULL` result. -/
def bufferedOpen (heap : Heap) (file : Option (List Byte)) (flags : Flags)
    (outcomes : List Outcome) : Option (BufferedFile × OpenFile Byte) :=
  if heap.header = false then
    none
  else
    match openFile file (systemFlags flags) outcomes with
    | none => none
    | some fd =>
        match heap.readBuffer, heap.writeBuffer with
        | some readBuffer, some writeBuffer =>
            some
              ({ readBuffer := List.ofFn readBuffer
                 writeBuffer := List.ofFn writeBuffer
                 readBufferSize := 0
                 writeBufferSize := BUFFER_SIZE
                 readBufferPos := 0
                 writeBufferPos := 0
                 flags := systemFlags flags
                 preappend := flags.has O_PREAPPEND },
                fd)
        | _, _ => none

/-! ## Flushing -/

/--
The part of the preappend branch that copies the existing content into
`temp_buf`: `malloc`, a seek to the start and one `read` of `file_len` bytes.
-/
def readExisting (fd : OpenFile Byte) (fileLen : Nat) :
    Option (List Byte) × OpenFile Byte :=
  if fileLen = 0 then
    (some [], fd)
  else if fd.outcome = .error then
    (none, fd.advance)
  else
    match fd.advance.lseek 0 .set with
    | (none, fd) => (none, fd)
    | (some _, fd) =>
        match fd.read fileLen with
        | (none, fd) => (none, fd)
        | (some tempBuf, fd) =>
            if tempBuf.length ≠ fileLen then
              (none, fd)
            else
              (some tempBuf, fd)

/-- The preappend branch of `buffered_flush`; `false` is an early `-1`. -/
def preappendFlush (fd : OpenFile Byte) (data : List Byte) :
    Bool × OpenFile Byte :=
  match fd.lseek 0 .end with
  | (none, fd) => (false, fd)
  | (some fileLen, fd) =>
      match readExisting fd fileLen with
      | (none, fd) => (false, fd)
      | (some tempBuf, fd) =>
          match fd.lseek 0 .set with
          | (none, fd) => (false, fd)
          | (some _, fd) =>
              let (written, fd) := fd.write data
              if written ≠ data.length then
                (false, fd)
              else if 0 < fileLen then
                let (written, fd) := fd.write tempBuf
                (written = fileLen, fd)
              else
                (true, fd)

/-- The normal branch of `buffered_flush`. -/
def normalFlush (fd : OpenFile Byte) (data : List Byte) :
    Bool × OpenFile Byte :=
  let (written, fd) := fd.write data
  (written = data.length, fd)

/-- `buffered_flush`. -/
def bufferedFlush (bf : BufferedFile) (fd : OpenFile Byte) :
    Int × BufferedFile × OpenFile Byte :=
  if bf.writeBufferPos = 0 then
    (0, bf, fd)
  else
    let (flushed, fd) :=
      if bf.preappend then
        preappendFlush fd bf.pending
      else
        normalFlush fd bf.pending
    if flushed then
      (0, { bf with writeBufferPos := 0 }, fd)
    else
      (-1, bf, fd)

/-! ## Writing -/

/-- The `memcpy` of one turn of `buffered_write`, with the moved position. -/
def copyIn (bf : BufferedFile) (piece : List Byte) : BufferedFile :=
  { bf with
    writeBuffer := memcpy bf.writeBuffer bf.writeBufferPos piece
    writeBufferPos := bf.writeBufferPos + piece.length }

/-- The loop of `buffered_write`, from `bytesWritten` on. -/
def bufferedWriteLoop (data : List Byte) :
    Nat → Nat → BufferedFile → OpenFile Byte →
      Option (Int × BufferedFile × OpenFile Byte)
  | 0, _, _, _ => none
  | fuel + 1, bytesWritten, bf, fd =>
      if bytesWritten < data.length then
        let spaceLeft := bf.writeBufferSize - bf.writeBufferPos
        let toCopy := min (data.length - bytesWritten) spaceLeft
        let bf := copyIn bf ((data.drop bytesWritten).take toCopy)
        if bf.writeBufferPos = bf.writeBufferSize then
          let (result, bf, fd) := bufferedFlush bf fd
          if result = -1 then
            some (-1, bf, fd)
          else
            bufferedWriteLoop data fuel (bytesWritten + toCopy) bf fd
        else
          bufferedWriteLoop data fuel (bytesWritten + toCopy) bf fd
      else
        some (bytesWritten, bf, fd)

/--
`buffered_write`.  Every turn of the loop but the first copies a byte, since a
buffer that is full on entry is flushed by the first turn.
-/
def bufferedWrite (bf : BufferedFile) (fd : OpenFile Byte)
    (data : List Byte) : Option (Int × BufferedFile × OpenFile Byte) :=
  bufferedWriteLoop data (data.length + 2) 0 bf fd

/-! ## Reading -/

/-- Refill an exhausted read buffer; `none` stops the loop with its result. -/
def refill (bf : BufferedFile) (fd : OpenFile Byte) :
    Option (List Byte) × BufferedFile × OpenFile Byte :=
  match fd.read BUFFER_SIZE with
  | (none, fd) => (none, bf, fd)
  | (some [], fd) => (some [], bf, fd)
  | (some bytes, fd) =>
      (some bytes,
        { bf with
          readBuffer := memcpy bf.readBuffer 0 bytes
          readBufferSize := bytes.length
          readBufferPos := 0 },
        fd)

/-- The loop of `buffered_read`, with the bytes already copied to the caller. -/
def bufferedReadLoop (count : Nat) :
    Nat → List Byte → BufferedFile → OpenFile Byte →
      Option (Option (List Byte) × BufferedFile × OpenFile Byte)
  | 0, _, _, _ => none
  | fuel + 1, outBuf, bf, fd =>
      if outBuf.length < count then
        let copyOut (bf : BufferedFile) (fd : OpenFile Byte) :=
          let available := bf.readBufferSize - bf.readBufferPos
          let toCopy := min (count - outBuf.length) available
          bufferedReadLoop count fuel
            (outBuf ++ (bf.readBuffer.drop bf.readBufferPos).take toCopy)
            { bf with readBufferPos := bf.readBufferPos + toCopy } fd
        if bf.readBufferSize - bf.readBufferPos = 0 then
          match refill bf fd with
          | (none, bf, fd) => some (none, bf, fd)
          | (some [], bf, fd) => some (some outBuf, bf, fd)
          | (some _, bf, fd) => copyOut bf fd
        else
          copyOut bf fd
      else
        some (some outBuf, bf, fd)

/-- `buffered_read`: the bytes delivered, or `none` for `-1`. -/
def bufferedRead (bf : BufferedFile) (fd : OpenFile Byte) (count : Nat) :
    Option (Option (List Byte) × BufferedFile × OpenFile Byte) :=
  if 0 < bf.writeBufferPos then
    let (result, bf, fd) := bufferedFlush bf fd
    if result = -1 then
      some (none, bf, fd)
    else
      bufferedReadLoop count (count + 1) [] bf fd
  else
    bufferedReadLoop count (count + 1) [] bf fd

/-! ## Closing -/

/-- `close` on the descriptor. -/
def closeFile (fd : OpenFile Byte) : Int × OpenFile Byte :=
  (if fd.outcome = .error then -1 else 0, fd.advance)

/-- `buffered_close`: a failed flush is tried a second time. -/
def bufferedClose (bf : BufferedFile) (fd : OpenFile Byte) :
    Int × OpenFile Byte :=
  let (flushResult, fd) :=
    if 0 < bf.writeBufferPos then
      let (first, bf, fd) := bufferedFlush bf fd
      if first = -1 then
        let (second, _, fd) := bufferedFlush bf fd
        (if second = -1 then -1 else 0, fd)
      else
        (0, fd)
    else
      ((0 : Int), fd)
  let (closeResult, fd) := closeFile fd
  (if flushResult = -1 ∨ closeResult = -1 then -1 else 0, fd)

/-! ## Sessions -/

/-- One call made on an open buffered file. -/
inductive Call where
  | read (count : Nat)
  | write (data : List Byte)
  | flush
deriving DecidableEq, Repr

/-- The value a call returns to its caller. -/
inductive Reply where
  | bytes (delivered : Option (List Byte))
  | status (result : Int)
deriving DecidableEq, Repr

/-- One call on the buffered file. -/
def bufferedCall (bf : BufferedFile) (fd : OpenFile Byte) :
    Call → Option (Reply × BufferedFile × OpenFile Byte)
  | .read count =>
      (bufferedRead bf fd count).map fun (delivered, state) =>
        (.bytes delivered, state)
  | .write data =>
      (bufferedWrite bf fd data).map fun (result, state) =>
        (.status result, state)
  | .flush =>
      let (result, state) := bufferedFlush bf fd
      some (.status result, state)

/-- A sequence of calls on the buffered file. -/
def bufferedCalls :
    List Call → BufferedFile → OpenFile Byte →
      Option (List Reply × BufferedFile × OpenFile Byte)
  | [], bf, fd => some ([], bf, fd)
  | call :: rest, bf, fd =>
      match bufferedCall bf fd call with
      | none => none
      | some (reply, bf, fd) =>
          (bufferedCalls rest bf fd).map fun (replies, state) =>
            (reply :: replies, state)

/--
A whole session: `buffered_open`, the calls, `buffered_close`.  The result is
the replies, the value of `buffered_close` and the final content of the file.
-/
def bufferedSession (heap : Heap) (file : Option (List Byte)) (flags : Flags)
    (outcomes : List Outcome) (calls : List Call) :
    Option (List Reply × Int × List Byte) :=
  match bufferedOpen heap file flags outcomes with
  | none => none
  | some (bf, fd) =>
      (bufferedCalls calls bf fd).map fun (replies, bf, fd) =>
        let (result, fd) := bufferedClose bf fd
        (replies, result, fd.content)

end OSCourse.BufferedIo
