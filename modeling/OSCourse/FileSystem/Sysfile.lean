import OSCourse.FileSystem.Fs
import OSCourse.Library.TransitionSystem

/-!
# The file-system calls

Embedding of `ex5/bonus/sysfile.c`.  A path argument is `none` when `argstr`
fails.  Of `file.c`, `filedup` and `fileclose` count the references to a file,
`fileclose` drops the inode with the last one, and `fileread` and `filewrite`
are any sequences of locked `readi` and `writei`; a file that is not writable is
not written.  There is one device, so the test of `sys_link` for two devices is
left out.

Any number of processes make the calls; each call is one step.  Not among them
are `fstat`, which only reads, `pipe`, and the `fork` and `exit` of a process.
-/

namespace OSCourse.FileSystem

open OSCourse.Library.ByteBlock
open OSCourse.Library.TransitionSystem

/-! ## Flags -/

/-- `O_RDONLY`. -/
def oRdonly : BitVec 32 := 0

/-- `O_WRONLY`. -/
def oWronly : BitVec 32 := 1

/-- `O_RDWR`. -/
def oRdwr : BitVec 32 := 2

/-- `O_CREATE`. -/
def oCreate : BitVec 32 := 0x200

/-- `O_TRUNC`. -/
def oTrunc : BitVec 32 := 0x400

/-- `mode & flag`, as a condition. -/
def hasFlag (mode flag : BitVec 32) : Bool := mode &&& flag != 0

/-! ## Files -/

/-- The entry `f` of the file table. -/
def fileAt (f : Nat) : FsM File := do
  return (← get).file f

/-- Change the entry `f` of the file table. -/
def setFile (f : Nat) (change : File → File) : FsM Unit :=
  modify fun state =>
    { state with
      file := Function.update state.file f (change (state.file f)) }

/-- Change the file descriptor `fd` of process `p`. -/
def setFd (p fd : Nat) (entry : Option Nat) : FsM Unit :=
  modify fun state =>
    { state with
      proc := Function.update state.proc p
        { state.proc p with
          ofile := Function.update (state.proc p).ofile fd entry } }

/-- Change the current directory of process `p`. -/
def setCwd (p ip : Nat) : FsM Unit :=
  modify fun state =>
    { state with
      proc := Function.update state.proc p
        { state.proc p with cwd := some ip } }

/-- One access of `fileread` or `filewrite` to the inode of a file. -/
structure Access where
  off : BitVec 32
  n : BitVec 32
  copies : Nat → Bool
  source : Bytes
  next : BitVec 32

/-- What `fileread` or `filewrite` does, and its result. -/
structure Transfer where
  accesses : List Access
  result : Int

variable (k : Kernel)

/-- `filealloc`: the entry found, with one reference. -/
def filealloc : FsM (Option Nat) := do
  match k.filealloc (← get).file with
  | none => return none
  | some f => do
      setFile f fun file => { file with ref := 1 }
      return some f

/-- `filedup`. -/
def filedup (f : Nat) : FsM Unit := do
  let file ← fileAt f
  if file.ref < 1 then throw (.panic "filedup")
  else setFile f fun file => { file with ref := file.ref + 1 }

/-- `fileclose`. -/
def fileclose (f : Nat) : FsM Unit := do
  let file ← fileAt f
  if file.ref < 1 then throw (.panic "fileclose")
  else if 1 < file.ref then
    setFile f fun file => { file with ref := file.ref - 1 }
  else do
    setFile f fun file => { file with ref := 0, type := .none }
    if file.type = .none then return ()
    else do
      beginOp
      iput k file.ip
      endOp

/-- The accesses of `fileread`. -/
def readAccesses (f : Nat) : List Access → FsM Unit
  | [] => return ()
  | access :: rest => do
      let ip := (← fileAt f).ip
      ilock k ip
      let _ ← readi k ip access.copies access.off access.n
      setFile f fun file => { file with off := access.next }
      iunlock ip
      readAccesses f rest

/-- `fileread`. -/
def fileread (f : Nat) (transfer : Transfer) : FsM Int := do
  let file ← fileAt f
  if file.readable = true ∧ file.type = .inode then do
    readAccesses k f transfer.accesses
    return transfer.result
  else return transfer.result

/-- The accesses of `filewrite`. -/
def writeAccesses (f : Nat) : List Access → FsM Unit
  | [] => return ()
  | access :: rest => do
      let ip := (← fileAt f).ip
      beginOp
      ilock k ip
      let _ ← writei k ip access.copies access.source access.off access.n
      setFile f fun file => { file with off := access.next }
      iunlock ip
      endOp
      writeAccesses f rest

/-- `filewrite`. -/
def filewrite (f : Nat) (transfer : Transfer) : FsM Int := do
  let file ← fileAt f
  if file.writable = true ∧ file.type = .inode then do
    writeAccesses k f transfer.accesses
    return transfer.result
  else return transfer.result

/-- `argfd`. -/
def argfd (p : Nat) (fd : Int) : FsM (Option Nat) := do
  if fd < 0 ∨ (k.nofile : Int) ≤ fd then return none
  else return ((← get).proc p).ofile fd.toNat

/-- `fdalloc`; `none` where the source returns -1. -/
def fdalloc (p f : Nat) : FsM (Option Nat) := do
  let ofile := ((← get).proc p).ofile
  match (List.range k.nofile).find? fun fd => (ofile fd).isNone with
  | none => return none
  | some fd => do
      setFd p fd (some f)
      return some fd

/-! ## Descriptors -/

/-- `sys_dup`. -/
def sysDup (p : Nat) (fd : Int) : FsM Int := do
  match ← argfd k p fd with
  | none => return -1
  | some f =>
      match ← fdalloc k p f with
      | none => return -1
      | some copy => do
          filedup f
          return copy

/-- `sys_read`. -/
def sysRead (p : Nat) (fd : Int) (transfer : Transfer) : FsM Int := do
  match ← argfd k p fd with
  | none => return -1
  | some f => fileread k f transfer

/-- `sys_write`. -/
def sysWrite (p : Nat) (fd : Int) (transfer : Transfer) : FsM Int := do
  match ← argfd k p fd with
  | none => return -1
  | some f => filewrite k f transfer

/-- `sys_close`. -/
def sysClose (p : Nat) (fd : Int) : FsM Int := do
  match ← argfd k p fd with
  | none => return -1
  | some f => do
      setFd p fd.toNat none
      fileclose k f
      return 0

/-! ## Links -/

/-- The label `bad` of `sys_link`. -/
def linkBad (ip : Nat) : FsM Int := do
  ilock k ip
  setInode ip (Inode.edit fun copy => { copy with nlink := copy.nlink - 1 })
  iupdate k ip
  iunlockput k ip
  endOp
  return -1

/-- `sys_link` from the call of `nameiparent` on. -/
def linkNew (p : Nat) (new : Path) (ip : Nat) : FsM Int := do
  match ← nameiparent k p new with
  | none => linkBad k ip
  | some (dp, name) => do
      ilock k dp
      if (← dirlink k dp name (← inodeAt ip).inum) < 0 then do
        iunlockput k dp
        linkBad k ip
      else do
        iunlockput k dp
        iput k ip
        endOp
        return 0

/-- `sys_link`. -/
def sysLink (p : Nat) (old new : Option Path) : FsM Int := do
  match old, new with
  | some old, some new => do
      beginOp
      match ← namei k p old with
      | none => do
          endOp
          return -1
      | some ip => do
          ilock k ip
          if (← inodeAt ip).copy.type = tDir then do
            iunlockput k ip
            endOp
            return -1
          else do
            setInode ip (Inode.edit fun copy =>
              { copy with nlink := copy.nlink + 1 })
            iupdate k ip
            iunlock ip
            linkNew k p new ip
  | _, _ => return -1

/-- The loop of `isdirempty`. -/
def emptyDirLoop (dp : Nat) : Nat → Nat → FsM Bool
  | 0, _ => return true
  | left + 1, off => do
      let entry ← readDirent k dp off "isdirempty: readi"
      if direntInum entry = 0 then emptyDirLoop dp left (off + 16)
      else return false

/-- `isdirempty`. -/
def isdirempty (dp : Nat) : FsM Bool := do
  emptyDirLoop k dp (direntCount (← inodeAt dp).copy.size - 2) 32

/-- The label `bad` of `sys_unlink`. -/
def unlinkBad (dp : Nat) : FsM Int := do
  iunlockput k dp
  endOp
  return -1

/-- `sys_unlink` gives up the link from `..` of a removed directory. -/
def unlinkParent (dp ip : Nat) : FsM Unit := do
  if (← inodeAt ip).copy.type = tDir then do
    setInode dp (Inode.edit fun copy => { copy with nlink := copy.nlink - 1 })
    iupdate k dp
  else return ()

/-- `sys_unlink` from the clearing of the entry on. -/
def unlinkEntry (dp ip off : Nat) : FsM Int := do
  let written ← writei k dp kernelMemory zeros (BitVec.ofNat 32 off) 16
  if written ≠ 16 then throw (.panic "unlink: writei")
  else do
    unlinkParent k dp ip
    iunlockput k dp
    setInode ip (Inode.edit fun copy => { copy with nlink := copy.nlink - 1 })
    iupdate k ip
    iunlockput k ip
    endOp
    return 0

/-- Is the inode a directory with entries besides `.` and `..`? -/
def isFullDir (ip : Nat) : FsM Bool := do
  if (← inodeAt ip).copy.type = tDir then
    return !(← isdirempty k ip)
  else return false

/-- `sys_unlink`. -/
def sysUnlink (p : Nat) (path : Option Path) : FsM Int := do
  match path with
  | none => return -1
  | some path => do
      beginOp
      match ← nameiparent k p path with
      | none => do
          endOp
          return -1
      | some (dp, name) => do
          ilock k dp
          if namecmp name [46] || namecmp name [46, 46] then unlinkBad k dp
          else
            match ← dirlookup k dp name with
            | none => unlinkBad k dp
            | some (ip, off) => do
                ilock k ip
                if (← inodeAt ip).copy.nlink.toInt < 1 then
                  throw (.panic "unlink: nlink < 1")
                else if ← isFullDir k ip then do
                  iunlockput k ip
                  unlinkBad k dp
                else unlinkEntry k dp ip off

/-! ## Creating and opening -/

/-- The label `fail` of `create`. -/
def createFail (dp ip : Nat) : FsM (Option Nat) := do
  setInode ip (Inode.edit fun copy => { copy with nlink := 0 })
  iupdate k ip
  iunlockput k ip
  iunlockput k dp
  return none

/-- The entries `.` and `..` of a new directory; false where `create` fails. -/
def createDots (dp ip : Nat) (type : BitVec 16) : FsM Bool := do
  if type = tDir then do
    if (← dirlink k ip [46] (← inodeAt ip).inum) < 0 then return false
    else if (← dirlink k ip [46, 46] (← inodeAt dp).inum) < 0 then
      return false
    else return true
  else return true

/-- `create` counts the link from `..` of a new directory. -/
def createParent (dp : Nat) (type : BitVec 16) : FsM Unit := do
  if type = tDir then do
    setInode dp (Inode.edit fun copy => { copy with nlink := copy.nlink + 1 })
    iupdate k dp
  else return ()

/-- `create` after a successful `ialloc`. -/
def createNew (dp ip : Nat) (name : Name) (type major minor : BitVec 16) :
    FsM (Option Nat) := do
  ilock k ip
  setInode ip (Inode.edit fun copy =>
    { copy with major := major, minor := minor, nlink := 1 })
  iupdate k ip
  if (← createDots k dp ip type) = false then createFail k dp ip
  else if (← dirlink k dp name (← inodeAt ip).inum) < 0 then
    createFail k dp ip
  else do
    createParent k dp type
    iunlockput k dp
    return some ip

/-- `create` when the last element exists. -/
def createFound (dp ip : Nat) (type : BitVec 16) : FsM (Option Nat) := do
  iunlockput k dp
  ilock k ip
  let found := (← inodeAt ip).copy.type
  if type = tFile ∧ (found = tFile ∨ found = tDevice) then return some ip
  else do
    iunlockput k ip
    return none

/-- `create`. -/
def create (p : Nat) (path : Path) (type major minor : BitVec 16) :
    FsM (Option Nat) := do
  match ← nameiparent k p path with
  | none => return none
  | some (dp, name) => do
      ilock k dp
      match ← dirlookup k dp name with
      | some (ip, _) => createFound k dp ip type
      | none =>
          match ← ialloc k type with
          | none => do
              iunlockput k dp
              return none
          | some ip => createNew k dp ip name type major minor

/-- The bit 8 of the permissions. -/
def ownerRead (permissions : BitVec 16) : Bool := permissions.getLsbD 8

/-- The bit 7 of the permissions. -/
def ownerWrite (permissions : BitVec 16) : Bool := permissions.getLsbD 7

/-- `check_permission(ip, mode) == 0`. -/
def checkPermission (permissions : BitVec 16) (mode : BitVec 32) : Bool :=
  if (mode = oRdonly ∨ mode = oRdwr) ∧ ownerRead permissions = false then
    false
  else if (mode = oWronly ∨ mode = oRdwr) ∧ ownerWrite permissions = false then
    false
  else true

/-- The exits of `sys_open` with the inode locked. -/
def openBad (ip : Nat) : FsM Int := do
  iunlockput k ip
  endOp
  return -1

/-- The inode that `sys_open` opens, locked; `none` where it fails. -/
def openInode (p : Nat) (path : Path) (omode : BitVec 32) :
    FsM (Option Nat) := do
  if hasFlag omode oCreate then create k p path tFile 0 0
  else
    match ← namei k p path with
    | none => return none
    | some ip => do
        ilock k ip
        if (← inodeAt ip).copy.type = tDir ∧ omode ≠ oRdonly then do
          iunlockput k ip
          return none
        else return some ip

/-- The fields that `sys_open` sets in the file. -/
def openedFile (inode : Inode) (ip : Nat) (omode : BitVec 32) (file : File) :
    File :=
  let file :=
    if inode.copy.type = tDevice then
      { file with type := .device, major := inode.copy.major }
    else { file with type := .inode, off := 0 }
  { file with
    ip := ip
    readable := !hasFlag omode oWronly
    writable := hasFlag omode oWronly || hasFlag omode oRdwr }

/-- The truncation by `sys_open`. -/
def openTrunc (ip : Nat) (omode : BitVec 32) : FsM Unit := do
  if hasFlag omode oTrunc = true ∧ (← inodeAt ip).copy.type = tFile then
    itrunc k ip
  else return ()

/-- `sys_open` from the assignments to the new file on. -/
def openFile (ip f fd : Nat) (omode : BitVec 32) : FsM Int := do
  let inode ← inodeAt ip
  setFile f (openedFile inode ip omode)
  openTrunc k ip omode
  iunlock ip
  endOp
  return fd

/-- `sys_open` after the lookup: the checks and the new descriptor. -/
def openChecked (p ip : Nat) (omode : BitVec 32) : FsM Int := do
  let copy := (← inodeAt ip).copy
  if checkPermission copy.permissions omode = false then openBad k ip
  else if copy.type = tDevice ∧
      (copy.major.toInt < 0 ∨ (k.ndev : Int) ≤ copy.major.toInt) then
    openBad k ip
  else
    match ← filealloc k with
    | none => openBad k ip
    | some f =>
        match ← fdalloc k p f with
        | none => do
            fileclose k f
            openBad k ip
        | some fd => openFile k ip f fd omode

/-- `sys_open`. -/
def sysOpen (p : Nat) (path : Option Path) (omode : BitVec 32) :
    FsM Int := do
  match path with
  | none => return -1
  | some path => do
      beginOp
      match ← openInode k p path omode with
      | none => do
          endOp
          return -1
      | some ip => openChecked k p ip omode

/-! ## The other calls -/

/-- The end of `sys_mkdir` and `sys_mknod`. -/
def makeNode (p : Nat) (path : Option Path) (type major minor : BitVec 16) :
    FsM Int := do
  beginOp
  match path with
  | none => do
      endOp
      return -1
  | some path =>
      match ← create k p path type major minor with
      | none => do
          endOp
          return -1
      | some ip => do
          iunlockput k ip
          endOp
          return 0

/-- `sys_mkdir`. -/
def sysMkdir (p : Nat) (path : Option Path) : FsM Int :=
  makeNode k p path tDir 0 0

/-- `sys_mknod`; the device numbers are cut to `short`. -/
def sysMknod (p : Nat) (path : Option Path) (major minor : BitVec 32) :
    FsM Int :=
  makeNode k p path tDevice (major.setWidth 16) (minor.setWidth 16)

/-- `sys_chdir`. -/
def sysChdir (p : Nat) (path : Option Path) : FsM Int := do
  beginOp
  match path with
  | none => do
      endOp
      return -1
  | some path =>
      match ← namei k p path with
      | none => do
          endOp
          return -1
      | some ip => do
          ilock k ip
          if (← inodeAt ip).copy.type ≠ tDir then do
            iunlockput k ip
            endOp
            return -1
          else do
            iunlock ip
            match ((← get).proc p).cwd with
            | none => throw .nullPointer
            | some cwd => do
                iput k cwd
                endOp
                setCwd p ip
                return 0

/-- `mode & 0777`, stored in a `short`. -/
def maskMode (mode : BitVec 32) : BitVec 16 := (mode &&& 511).setWidth 16

/-- `sys_chmod`. -/
def sysChmod (p : Nat) (path : Option Path) (mode : BitVec 32) : FsM Int := do
  match path with
  | none => return -1
  | some path => do
      beginOp
      match ← namei k p path with
      | none => do
          endOp
          return -1
      | some ip => do
          ilock k ip
          setInode ip (Inode.edit fun copy =>
            { copy with permissions := maskMode mode })
          iupdate k ip
          let inum := (← inodeAt ip).inum
          modify fun state => state.record (.chmod inum mode)
          iunlock ip
          iput k ip
          endOp
          return 0

/-- `sys_getperm`. -/
def sysGetperm (p : Nat) (path : Option Path) : FsM Int := do
  match path with
  | none => return -1
  | some path => do
      beginOp
      match ← namei k p path with
      | none => do
          endOp
          return -1
      | some ip => do
          ilock k ip
          let permissions := (← inodeAt ip).copy.permissions
          iunlock ip
          iput k ip
          endOp
          return permissions.toInt

/-! ## The system -/

/-- The calls but `fstat`, `pipe`, `fork` and `exit`, and `start`: a new process
is given the root as its current directory, as `userinit` does. -/
inductive Call where
  | start
  | open (path : Option Path) (omode : BitVec 32)
  | dup (fd : Int)
  | read (fd : Int) (transfer : Transfer)
  | write (fd : Int) (transfer : Transfer)
  | close (fd : Int)
  | link (old new : Option Path)
  | unlink (path : Option Path)
  | mkdir (path : Option Path)
  | mknod (path : Option Path) (major minor : BitVec 32)
  | chdir (path : Option Path)
  | chmod (path : Option Path) (mode : BitVec 32)
  | getperm (path : Option Path)

/-- `p->cwd = namei("/")` of `userinit`, for a process without a directory. -/
def userinit (p : Nat) : FsM Int := do
  match ((← get).proc p).cwd with
  | some _ => return -1
  | none =>
      match ← namei k p [slash] with
      | none => return -1
      | some ip => do
          setCwd p ip
          return 0

/-- The call `call` made by process `p`. -/
def runCall (p : Nat) : Call → FsM Int
  | .start => userinit k p
  | .open path omode => sysOpen k p path omode
  | .dup fd => sysDup k p fd
  | .read fd transfer => sysRead k p fd transfer
  | .write fd transfer => sysWrite k p fd transfer
  | .close fd => sysClose k p fd
  | .link old new => sysLink k p old new
  | .unlink path => sysUnlink k p path
  | .mkdir path => sysMkdir k p path
  | .mknod path major minor => sysMknod k p path major minor
  | .chdir path => sysChdir k p path
  | .chmod path mode => sysChmod k p path mode
  | .getperm path => sysGetperm k p path

/-- A state at boot: nothing in the tables, no process, no history. -/
structure Booted (state : Fs) : Prop where
  inodes : ∀ ip, (state.inode ip).ref = 0
  files : ∀ f, (state.file f).ref = 0 ∧ (state.file f).type = .none
  cwds : ∀ p, (state.proc p).cwd = none
  descriptors : ∀ p fd, (state.proc p).ofile fd = none
  history : state.history = []

end OSCourse.FileSystem
