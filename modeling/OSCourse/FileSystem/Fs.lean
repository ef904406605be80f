import Mathlib.Data.List.Basic
import OSCourse.FileSystem.Layout

/-!
# Inodes, blocks and directories

Embedding of `ex5/bonus/fs.c`.  The block layer acts as a store of blocks:
`bread` reads a block and `log_write` writes it.  A system call is one atomic
step, so a sleep lock that is found taken is never given back: `acquiresleep`
stops the call.  A panic stops it too.

`history` is a ghost of the run: the inodes allocated and the permissions set,
newest first.  No function reads it.
-/

namespace OSCourse.FileSystem

open OSCourse.Library.ByteBlock

/-! ## Data -/

/-- `struct inode`; the fields copied from disk are in `copy`. -/
structure Inode where
  inum : Nat
  ref : Nat
  locked : Bool
  valid : Bool
  copy : Dinode

/-- The kinds of `struct file` that the modelled calls make. -/
inductive FdType where
  | none
  | inode
  | device
deriving DecidableEq, Repr

/-- `struct file`; `ip` is an index of the inode table. -/
structure File where
  type : FdType
  ref : Nat
  readable : Bool
  writable : Bool
  ip : Nat
  off : BitVec 32
  major : BitVec 16
deriving DecidableEq

/-- The fields of `struct proc` that belong to the file system. -/
structure Proc where
  cwd : Option Nat
  ofile : Nat → Option Nat

/-- What happens to the permissions of an inode. -/
inductive Event where
  | allocated (inum : Nat)
  | chmod (inum : Nat) (mode : BitVec 32)
deriving DecidableEq, Repr

/-- The state of the file system. -/
structure Fs where
  disk : Disk
  inode : Nat → Inode
  file : Nat → File
  proc : Nat → Proc
  outstanding : Nat
  history : List Event

/-- Why a system call does not return. -/
inductive Stop where
  | panic (message : String)
  | deadlock
  | nullPointer
deriving DecidableEq, Repr

/-- The parts of the kernel: calls on the state that may not return. -/
abbrev FsM := StateT Fs (Except Stop)

/--
The super block, the sizes `NINODE`, `NOFILE` and `NDEV` of `param.h`, and
`filealloc` of `file.c`, which finds a free entry of the file table if it
returns one.
-/
structure Kernel where
  sb : Superblock
  ninode : Nat
  nofile : Nat
  ndev : Nat
  filealloc : (Nat → File) → Option Nat
  filealloc_free : ∀ files entry,
    filealloc files = some entry → (files entry).ref = 0

/-- A byte of user memory or of a path. -/
abbrev Byte := BitVec 8

/-- A path without its terminating zero. -/
abbrev Path := List Byte

/-- A path element, at most `DIRSIZ` bytes. -/
abbrev Name := List Byte

/-! ## State access -/

namespace Fs

/-- Write a block. -/
def withBlock (state : Fs) (block : Nat) (bytes : Bytes) : Fs :=
  { state with disk := Function.update state.disk block bytes }

/-- Change an entry of the inode table. -/
def withInode (state : Fs) (ip : Nat) (change : Inode → Inode) : Fs :=
  { state with
    inode := Function.update state.inode ip (change (state.inode ip)) }

/-- Record an event. -/
def record (state : Fs) (event : Event) : Fs :=
  { state with history := event :: state.history }

end Fs

/-- Apply a change to the fields copied from disk. -/
def Inode.edit (change : Dinode → Dinode) (inode : Inode) : Inode :=
  { inode with copy := change inode.copy }

/-- The bytes of a block. -/
def bread (block : Nat) : FsM Bytes := do
  return (← get).disk block

/-- Write back a block. -/
def logWrite (block : Nat) (bytes : Bytes) : FsM Unit :=
  modify fun state => state.withBlock block bytes

/-- The entry `ip` of the inode table. -/
def inodeAt (ip : Nat) : FsM Inode := do
  return (← get).inode ip

/-- Change the entry `ip` of the inode table. -/
def setInode (ip : Nat) (change : Inode → Inode) : FsM Unit :=
  modify fun state => state.withInode ip change

/-- `begin_op`: one more system call in the log. -/
def beginOp : FsM Unit :=
  modify fun state => { state with outstanding := state.outstanding + 1 }

/-- `end_op`. -/
def endOp : FsM Unit :=
  modify fun state => { state with outstanding := state.outstanding - 1 }

variable (k : Kernel)

/-! ## Blocks -/

/-- `bzero`. -/
def bzero (block : Nat) : FsM Unit :=
  logWrite block zeros

/-- The first block whose bit is clear; the two loops of `balloc` visit the
blocks in order. -/
def freeBlock (disk : Disk) : Option Nat :=
  (List.range k.sb.size).find? fun block => !k.sb.marked disk block

/-- `balloc`; zero if the disk is full. -/
def balloc : FsM (BitVec 32) := do
  match freeBlock k (← get).disk with
  | none => return 0
  | some block => do
      let bytes ← bread (k.sb.bblock block)
      logWrite (k.sb.bblock block) (setBit bytes (block % bpb))
      bzero block
      return BitVec.ofNat 32 block

/-- `bfree`. -/
def bfree (block : Nat) : FsM Unit := do
  let bytes ← bread (k.sb.bblock block)
  if isSet bytes (block % bpb) then
    logWrite (k.sb.bblock block) (clearBit bytes (block % bpb))
  else throw (.panic "freeing free block")

/-! ## The inode table -/

/-- `iget`. -/
def iget (inum : Nat) : FsM Nat := do
  let table := (← get).inode
  match (List.range k.ninode).find? fun ip =>
      decide (0 < (table ip).ref) && decide ((table ip).inum = inum) with
  | some ip => do
      setInode ip fun inode => { inode with ref := inode.ref + 1 }
      return ip
  | none =>
      match (List.range k.ninode).find? fun ip =>
          decide ((table ip).ref = 0) with
      | none => throw (.panic "iget: no inodes")
      | some ip => do
          setInode ip fun inode =>
            { inode with inum := inum, ref := 1, valid := false }
          return ip

/-- The first free disk inode, from inode 1 on. -/
def freeInode (disk : Disk) : Option Nat :=
  (List.range' 1 (k.sb.ninodes - 1)).find? fun inum =>
    decide ((k.sb.dinode disk inum).type = 0)

/-- `ialloc`. -/
def ialloc (type : BitVec 16) : FsM (Option Nat) := do
  match freeInode k (← get).disk with
  | none => return none
  | some inum => do
      let bytes ← bread (k.sb.iblock inum)
      logWrite (k.sb.iblock inum) (formatDinode bytes (inum % ipb) type)
      modify fun state => state.record (.allocated inum)
      let ip ← iget k inum
      return some ip

/-- `iupdate`. -/
def iupdate (ip : Nat) : FsM Unit := do
  let inode ← inodeAt ip
  let bytes ← bread (k.sb.iblock inode.inum)
  logWrite (k.sb.iblock inode.inum)
    (writeDinode bytes (inode.inum % ipb) inode.copy)

/-- `idup`. -/
def idup (ip : Nat) : FsM Nat := do
  setInode ip fun inode => { inode with ref := inode.ref + 1 }
  return ip

/-- `acquiresleep`. -/
def acquiresleep (ip : Nat) : FsM Unit := do
  if (← inodeAt ip).locked then throw .deadlock
  else setInode ip fun inode => { inode with locked := true }

/-- `releasesleep`. -/
def releasesleep (ip : Nat) : FsM Unit :=
  setInode ip fun inode => { inode with locked := false }

/-- `ilock`. -/
def ilock (ip : Nat) : FsM Unit := do
  if (← inodeAt ip).ref < 1 then throw (.panic "ilock")
  else do
    acquiresleep ip
    let inode ← inodeAt ip
    if inode.valid then return ()
    else do
      let bytes ← bread (k.sb.iblock inode.inum)
      let dinode := readDinode bytes (inode.inum % ipb)
      setInode ip fun inode => { inode with copy := dinode, valid := true }
      if dinode.type = 0 then throw (.panic "ilock: no type")
      else return ()

/-- `iunlock`. -/
def iunlock (ip : Nat) : FsM Unit := do
  let inode ← inodeAt ip
  if !inode.locked || decide (inode.ref < 1) then throw (.panic "iunlock")
  else releasesleep ip

/-! ## Inode content -/

/-- The block for a null entry of `addrs`. -/
def allocAddr (ip : Nat) (place : Fin (ndirect + 1)) : FsM (BitVec 32) := do
  let addr := (← inodeAt ip).copy.addrs place
  if addr = 0 then do
    let fresh ← balloc k
    if fresh = 0 then return 0
    else do
      setInode ip (Inode.edit fun copy =>
        { copy with addrs := Function.update copy.addrs place fresh })
      return fresh
  else return addr

/-- Entry `place` of an indirect block. -/
def indirectEntry (bytes : Bytes) (place : Nat) : BitVec 32 :=
  BitVec.ofNat 32 (load bytes (4 * place) 4)

/-- `bmap`; zero if the disk is full. -/
def bmap (ip bn : Nat) : FsM (BitVec 32) := do
  if direct : bn < ndirect then
    allocAddr k ip ⟨bn, by omega⟩
  else if bn - ndirect < nindirect then do
    let indirect ← allocAddr k ip (Fin.last ndirect)
    if indirect = 0 then return 0
    else do
      let bytes ← bread indirect.toNat
      let addr := indirectEntry bytes (bn - ndirect)
      if addr = 0 then do
        let fresh ← balloc k
        if fresh = 0 then return 0
        else do
          logWrite indirect.toNat
            (store bytes (4 * (bn - ndirect)) 4 fresh.toNat)
          return fresh
      else return addr
  else throw (.panic "bmap: out of range")

/-- The first loop of `itrunc`. -/
def truncDirect (ip : Nat) : List (Fin ndirect) → FsM Unit
  | [] => return ()
  | place :: rest => do
      let addr := (← inodeAt ip).copy.addrs place.castSucc
      if addr = 0 then truncDirect ip rest
      else do
        bfree k addr.toNat
        setInode ip (Inode.edit fun copy =>
          { copy with addrs := Function.update copy.addrs place.castSucc 0 })
        truncDirect ip rest

/-- The loop of `itrunc` over the entries of the indirect block. -/
def truncEntries (bytes : Bytes) : List Nat → FsM Unit
  | [] => return ()
  | place :: rest => do
      let addr := indirectEntry bytes place
      if addr = 0 then truncEntries bytes rest
      else do
        bfree k addr.toNat
        truncEntries bytes rest

/-- The part of `itrunc` for the indirect block. -/
def truncIndirect (ip : Nat) : FsM Unit := do
  let addr := (← inodeAt ip).copy.addrs (Fin.last ndirect)
  if addr = 0 then return ()
  else do
    let bytes ← bread addr.toNat
    truncEntries k bytes (List.range nindirect)
    bfree k addr.toNat
    setInode ip (Inode.edit fun copy =>
      { copy with addrs := Function.update copy.addrs (Fin.last ndirect) 0 })

/-- `itrunc`. -/
def itrunc (ip : Nat) : FsM Unit := do
  truncDirect k ip (List.finRange ndirect)
  truncIndirect k ip
  setInode ip (Inode.edit fun copy => { copy with size := 0 })
  iupdate k ip

/-- `iput`. -/
def iput (ip : Nat) : FsM Unit := do
  let inode ← inodeAt ip
  if inode.ref = 1 ∧ inode.valid = true ∧ inode.copy.nlink = 0 then do
    acquiresleep ip
    itrunc k ip
    setInode ip (Inode.edit fun copy => { copy with type := 0 })
    iupdate k ip
    setInode ip fun inode => { inode with valid := false }
    releasesleep ip
    setInode ip fun inode => { inode with ref := inode.ref - 1 }
  else setInode ip fun inode => { inode with ref := inode.ref - 1 }

/-- `iunlockput`. -/
def iunlockput (ip : Nat) : FsM Unit := do
  iunlock ip
  iput k ip

/-- The part of a request that lies in the block of `off`. -/
def chunk (off left : Nat) : Nat := min left (bsize - off % bsize)

/-- The loop of `readi`: `left` bytes to read, `done` read so far. -/
def readLoop (ip : Nat) (copyout : Nat → Bool) :
    Nat → Nat → Nat → List Byte → FsM (Option (List Byte))
  | 0, _, _, done => return some done
  | fuel + 1, off, left, done => do
      if left = 0 then return some done
      else do
        let addr ← bmap k ip (off / bsize)
        if addr = 0 then return some done
        else do
          let bytes ← bread addr.toNat
          if copyout done.length then
            readLoop ip copyout fuel (off + chunk off left)
              (left - chunk off left)
              (done ++ (List.range (chunk off left)).map
                fun place => bytes (off % bsize + place))
          else return none

/--
`readi`.  The result holds the bytes copied; it is `none` where the source
returns -1.  `copyout` tells whether the copy at each position of the
destination succeeds.
-/
def readi (ip : Nat) (copyout : Nat → Bool) (off n : BitVec 32) :
    FsM (Option (List Byte)) := do
  let size := (← inodeAt ip).copy.size
  if size < off ∨ off + n < off then return some []
  else
    let left := if size < off + n then (size - off).toNat else n.toNat
    readLoop k ip copyout left off.toNat left []

/-- The loop of `writei`: it returns the final offset and the bytes written.  A
copy that fails is taken to leave the block as it was. -/
def writeLoop (ip : Nat) (copyin : Nat → Bool) (source : Bytes) :
    Nat → Nat → Nat → Nat → FsM (Nat × Nat)
  | 0, off, _, tot => return (off, tot)
  | fuel + 1, off, left, tot => do
      if left = 0 then return (off, tot)
      else do
        let addr ← bmap k ip (off / bsize)
        if addr = 0 then return (off, tot)
        else do
          let bytes ← bread addr.toNat
          if copyin tot then do
            logWrite addr.toNat
              (overwrite bytes (off % bsize) (chunk off left)
                fun place => source (tot + place))
            writeLoop ip copyin source fuel (off + chunk off left)
              (left - chunk off left) (tot + chunk off left)
          else return (off, tot)

/-- `writei`; `copyin` tells whether the copy from each position of the source
succeeds. -/
def writei (ip : Nat) (copyin : Nat → Bool) (source : Bytes)
    (off n : BitVec 32) : FsM Int := do
  let size := (← inodeAt ip).copy.size
  if size < off ∨ off + n < off then return -1
  else if maxfile * bsize < (off + n).toNat then return -1
  else do
    let (last, tot) ←
      writeLoop k ip copyin source n.toNat off.toNat n.toNat 0
    setInode ip (Inode.edit fun copy =>
      if copy.size.toNat < last then
        { copy with size := BitVec.ofNat 32 last }
      else copy)
    iupdate k ip
    return tot

/-! ## Directories -/

/-- The bytes of a C string in an array of `DIRSIZ` characters. -/
def cString (bytes : List Byte) : List Byte :=
  (bytes.take dirsiz).takeWhile (· ≠ 0)

/-- `namecmp(s, t) == 0`. -/
def namecmp (s t : List Byte) : Bool := cString s == cString t

/-- The field `inum` of the bytes of a directory entry. -/
def direntInum (entry : List Byte) : Nat :=
  load (fun place => entry.getD place 0) 0 2

/-- The field `name` of the bytes of a directory entry. -/
def direntName (entry : List Byte) : List Byte := entry.drop 2

/-- The bytes of the directory entry for `inum` that `strncpy` names. -/
def direntBytes (name : Name) (inum : Nat) : Bytes :=
  fun place =>
    if place < 2 then littleEndian inum place
    else (cString name).getD (place - 2) 0

/-- A copy to or from kernel memory does not fail. -/
def kernelMemory : Nat → Bool := fun _ => true

/-- Read the directory entry at `off`; `message` is the panic of the caller. -/
def readDirent (dp off : Nat) (message : String) : FsM (List Byte) := do
  match ← readi k dp kernelMemory (BitVec.ofNat 32 off) 16 with
  | none => throw (.panic message)
  | some entry =>
      if entry.length = 16 then return entry else throw (.panic message)

/-- The number of directory entries that begin below `size`. -/
def direntCount (size : BitVec 32) : Nat := (size.toNat + 15) / 16

/-- The loop of `dirlookup`, with the entries left to visit. -/
def lookupLoop (dp : Nat) (name : Name) :
    Nat → Nat → FsM (Option (Nat × Nat))
  | 0, _ => return none
  | left + 1, off => do
      let entry ← readDirent k dp off "dirlookup read"
      if direntInum entry = 0 then lookupLoop dp name left (off + 16)
      else if namecmp name (direntName entry) then do
        let ip ← iget k (direntInum entry)
        return some (ip, off)
      else lookupLoop dp name left (off + 16)

/-- `dirlookup`, with the offset of the entry found. -/
def dirlookup (dp : Nat) (name : Name) : FsM (Option (Nat × Nat)) := do
  let copy := (← inodeAt dp).copy
  if copy.type ≠ tDir then throw (.panic "dirlookup not DIR")
  else lookupLoop k dp name (direntCount copy.size) 0

/-- The search of `dirlink` for an empty entry. -/
def emptyLoop (dp : Nat) : Nat → Nat → FsM Nat
  | 0, off => return off
  | left + 1, off => do
      let entry ← readDirent k dp off "dirlink read"
      if direntInum entry = 0 then return off
      else emptyLoop dp left (off + 16)

/-- `dirlink`. -/
def dirlink (dp : Nat) (name : Name) (inum : Nat) : FsM Int := do
  match ← dirlookup k dp name with
  | some (ip, _) => do
      iput k ip
      return -1
  | none => do
      let off ← emptyLoop k dp (direntCount (← inodeAt dp).copy.size) 0
      let written ← writei k dp kernelMemory (direntBytes name inum)
        (BitVec.ofNat 32 off) 16
      if written = 16 then return 0 else return -1

/-! ## Paths -/

/-- The character `/`. -/
def slash : Byte := 47

/-- `skipelem`: the next element and the path after it. -/
def skipelem (path : Path) : Option (Name × Path) :=
  match path.dropWhile (· == slash) with
  | [] => none
  | rest =>
      some ((rest.takeWhile (· != slash)).take dirsiz,
        (rest.dropWhile (· != slash)).dropWhile (· == slash))

/-- The elements that at most `fuel` calls of `skipelem` give. -/
def elementsWithin : Nat → Path → List Name
  | 0, _ => []
  | fuel + 1, path =>
      match skipelem path with
      | none => []
      | some (name, rest) => name :: elementsWithin fuel rest

/-- The elements of a path; every call of `skipelem` consumes a character. -/
def elements (path : Path) : List Name := elementsWithin path.length path

/--
The loop of `namex`.  With `nameiparent` it returns the parent and the last
element; otherwise the element returned is of no use.
-/
def namexLoop (nameiparent : Bool) :
    Nat → Name → List Name → FsM (Option (Nat × Name))
  | ip, name, [] => do
      if nameiparent then do
        iput k ip
        return none
      else return some (ip, name)
  | ip, _, name :: rest => do
      ilock k ip
      if (← inodeAt ip).copy.type ≠ tDir then do
        iunlockput k ip
        return none
      else if nameiparent && rest.isEmpty then do
        iunlock ip
        return some (ip, name)
      else
        match ← dirlookup k ip name with
        | none => do
            iunlockput k ip
            return none
        | some (next, _) => do
            iunlockput k ip
            namexLoop nameiparent next name rest

/-- The inode a walk starts from: the root or the current directory. -/
def startInode (p : Nat) (path : Path) : FsM Nat := do
  if path.head? = some slash then iget k rootIno
  else
    match ((← get).proc p).cwd with
    | none => throw .nullPointer
    | some cwd => idup cwd

/-- `namex`, called by process `p`. -/
def namex (p : Nat) (path : Path) (nameiparent : Bool) :
    FsM (Option (Nat × Name)) := do
  let ip ← startInode k p path
  namexLoop k nameiparent ip [] (elements path)

/-- `namei`. -/
def namei (p : Nat) (path : Path) : FsM (Option Nat) := do
  return (← namex k p path false).map Prod.fst

/-- `nameiparent`. -/
def nameiparent (p : Nat) (path : Path) : FsM (Option (Nat × Name)) :=
  namex k p path true

/-! ## Path elements -/

theorem skipelem_shorter {path rest : Path} {name : Name}
    (found : skipelem path = some (name, rest)) :
    rest.length < path.length := by
  have skipped : (path.dropWhile (· == slash)).length ≤ path.length :=
    (List.dropWhile_sublist _).length_le
  unfold skipelem at found
  split at found
  · cases found
  · next nonempty =>
    cases found
    rcases fresh : path.dropWhile (· == slash) with _ | ⟨first, more⟩
    · exact absurd fresh nonempty
    · have notSlash : (first == slash) = false := by
        have := List.head?_dropWhile_not (· == slash) path
        simpa [fresh] using this
      have shorter :
          ((more.dropWhile (· != slash)).dropWhile (· == slash)).length ≤
            more.length :=
        (List.dropWhile_sublist _).length_le.trans
          (List.dropWhile_sublist _).length_le
      rw [fresh] at skipped
      have consumes :
          (first :: more).dropWhile (· != slash) =
            more.dropWhile (· != slash) := by
        simp [bne, notSlash]
      rw [consumes]
      exact Nat.lt_of_le_of_lt shorter skipped

theorem elementsWithin_of_le {fuel : Nat} {path : Path}
    (enough : path.length ≤ fuel) :
    elementsWithin fuel path = elements path := by
  induction fuel using Nat.strong_induction_on generalizing path with
  | _ fuel induction =>
      cases fuel with
      | zero =>
          have empty : path = [] := List.length_eq_zero_iff.mp (by omega)
          rw [empty]
          rfl
      | succ fuel =>
          rcases path with _ | ⟨first, more⟩
          · rfl
          · simp only [elements, List.length_cons, elementsWithin]
            cases found : skipelem (first :: more) with
            | none => rfl
            | some pair =>
                have shorter := skipelem_shorter found
                simp only [List.length_cons] at shorter enough
                simp only
                rw [induction fuel (by omega) (by omega),
                  induction more.length (by omega) (by omega)]

/-- The elements of a path are those that `skipelem` gives, one by one. -/
theorem elements_eq (path : Path) :
    elements path =
      match skipelem path with
      | none => []
      | some (name, rest) => name :: elements rest := by
  rcases path with _ | ⟨first, more⟩
  · rfl
  · simp only [elements, List.length_cons, elementsWithin]
    cases found : skipelem (first :: more) with
    | none => rfl
    | some pair =>
        have shorter := skipelem_shorter found
        simp only [List.length_cons] at shorter
        simp only
        rw [elementsWithin_of_le (by omega)]
        rfl

end OSCourse.FileSystem
