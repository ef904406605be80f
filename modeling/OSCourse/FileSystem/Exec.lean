import OSCourse.FileSystem.Permissions

/-!
# Running a file

Embedding of `ex5/bonus/exec.c`.  The routines of `vm.c` and `proc.c` that make
page tables are parameters: they act on a memory that the file system does not
share.  A run is made of the calls on files and of `exec`.
-/

namespace OSCourse.FileSystem

open OSCourse.Library.ByteBlock
open OSCourse.Library.Hoare
open OSCourse.Library.TransitionSystem

/-! ## Data -/

/-- An address or a size in user memory. -/
abbrev Word := BitVec 64

/--
The routines of `vm.c` and `proc.c` that `exec` calls, and `MAXARG` of
`param.h`.  `kernelCopy` is the copy of `readi` to a kernel address.
-/
structure Vm where
  Memory : Type
  Pagetable : Type
  maxarg : Nat
  procPagetable : Nat → Memory → Option Pagetable × Memory
  procFreepagetable : Pagetable → Word → Memory → Memory
  uvmalloc : Pagetable → Word → Word → Nat → Memory → Word × Memory
  uvmclear : Pagetable → Word → Memory → Memory
  walkaddr : Pagetable → Word → Memory → Word
  kernelCopy : Word → List Byte → Memory → Memory
  copyout : Pagetable → Word → List Byte → Memory → Bool × Memory

/-- The registers of `struct trapframe` that `exec` sets. -/
structure Trapframe where
  epc : Word
  sp : Word
  a1 : Word
deriving DecidableEq

/-- The fields of `struct proc` that belong to the user image. -/
structure UserImage (vm : Vm) where
  pagetable : vm.Pagetable
  sz : Word
  trapframe : Trapframe
  name : List Byte

/-- The file system, the memory of the page tables, and the image of each
process. -/
structure Machine (vm : Vm) where
  fs : Fs
  memory : vm.Memory
  image : Nat → UserImage vm

/-- The fields of `struct elfhdr` that `exec` reads. -/
structure Elfhdr where
  magic : BitVec 32
  entry : Word
  phoff : Word
  phnum : Nat
deriving DecidableEq

/-- The fields of `struct proghdr` that `exec` reads. -/
structure Proghdr where
  type : BitVec 32
  flags : BitVec 32
  off : Word
  vaddr : Word
  filesz : Word
  memsz : Word
deriving DecidableEq

/-- `sizeof(struct elfhdr)`. -/
def elfhdrSize : Nat := 64

/-- `sizeof(struct proghdr)`. -/
def proghdrSize : Nat := 56

/-- `ELF_MAGIC`. -/
def elfMagic : BitVec 32 := 0x464C457F

/-- `ELF_PROG_LOAD`. -/
def elfProgLoad : BitVec 32 := 1

/-- `PGSIZE`. -/
def pgsize : Nat := 4096

/-- `PTE_W`. -/
def pteW : Nat := 4

/-- `PTE_X`. -/
def pteX : Nat := 8

/-- The header in the bytes read from the start of a file. -/
def readElfhdr (bytes : List Byte) : Elfhdr :=
  let block : Bytes := fun place => bytes.getD place 0
  ⟨.ofNat 32 (load block 0 4), .ofNat 64 (load block 24 8),
    .ofNat 64 (load block 32 8), load block 56 2⟩

/-- The program header in the bytes read. -/
def readProghdr (bytes : List Byte) : Proghdr :=
  let block : Bytes := fun place => bytes.getD place 0
  ⟨.ofNat 32 (load block 0 4), .ofNat 32 (load block 4 4),
    .ofNat 64 (load block 8 8), .ofNat 64 (load block 16 8),
    .ofNat 64 (load block 32 8), .ofNat 64 (load block 40 8)⟩

/-- `flags2perm`. -/
def flags2perm (flags : BitVec 32) : Nat :=
  (if flags.getLsbD 0 then pteX else 0) + (if flags.getLsbD 1 then pteW else 0)

/-- `PGROUNDUP`. -/
def pgRoundUp (sz : Word) : Word :=
  let up := sz + .ofNat 64 (pgsize - 1)
  up - up % .ofNat 64 pgsize

/-- `sp -= sp % 16`. -/
def alignDown (sp : Word) : Word := sp - sp % 16

/-- The part of a path after its last slash. -/
def lastElement (path : Path) : List Byte :=
  (path.reverse.takeWhile (· ≠ slash)).reverse

/-- `safestrcpy` into the 16 bytes of `p->name`. -/
def safestrcpy (source : List Byte) : List Byte := source.take 15

/-- The bytes of the pointers that are pushed for `argv`. -/
def pointerBytes (pointers : List Word) : List Byte :=
  pointers.flatMap fun pointer =>
    (List.range 8).map (littleEndian pointer.toNat)

/-- `(permissions >> 6) & 1`. -/
def ownerExec (permissions : BitVec 16) : Bool := permissions.getLsbD 6

/-! ## Programs on the machine -/

variable {vm : Vm} (k : Kernel)

/-- The parts of `exec`: calls on the machine that may not return. -/
abbrev ExecM (vm : Vm) := StateT (Machine vm) (Except Stop)

/-- A part of the file system, run on the machine. -/
def onFs {α : Type} (program : FsM α) : ExecM vm α :=
  onPart Machine.fs (fun fs machine => { machine with fs := fs }) program

/-- A routine on the memory. -/
def onMemory {α : Type} (routine : vm.Memory → α × vm.Memory) : ExecM vm α :=
  modifyGet fun machine =>
    ((routine machine.memory).1,
      { machine with memory := (routine machine.memory).2 })

/-- The bytes that `readi` copies to kernel memory, if they are `n`. -/
def readKernel (ip : Nat) (off n : BitVec 32) :
    ExecM vm (List Byte × Bool) := do
  let copied := (← onFs (readi k ip kernelMemory off n)).getD []
  return (copied, decide (copied.length = n.toNat))

/-- `iunlockput(ip); end_op();` -/
def leave (ip : Nat) : ExecM vm Unit := do
  onFs (iunlockput k ip)
  onFs endOp

/-! ## Loading -/

/-- The loop of `loadseg`, over the offsets of the pages that are left. -/
def loadsegLoop (pagetable : vm.Pagetable) (va : Word) (ip : Nat)
    (offset : BitVec 32) (sz : Nat) : List Nat → ExecM vm Bool
  | [] => return true
  | i :: rest => do
      let pa := vm.walkaddr pagetable (va + .ofNat 64 i) (← get).memory
      if pa = 0 then throw (.panic "loadseg: address should exist")
      else do
        let (bytes, complete) ← readKernel k ip (offset + .ofNat 32 i)
          (.ofNat 32 (min (sz - i) pgsize))
        onMemory fun memory => ((), vm.kernelCopy pa bytes memory)
        if complete then loadsegLoop pagetable va ip offset sz rest
        else return false

/-- `loadseg`; a file ends before its offset can wrap. -/
def loadseg (pagetable : vm.Pagetable) (va : Word) (ip : Nat)
    (offset sz : BitVec 32) : ExecM vm Bool :=
  loadsegLoop k pagetable va ip offset sz.toNat
    ((List.range ((sz.toNat + pgsize - 1) / pgsize)).map (· * pgsize))

/-- The loop over the program headers, `left` of them to go.  The result tells
whether all were loaded, and the size reached. -/
def loadLoop (pagetable : vm.Pagetable) (ip : Nat) :
    Nat → BitVec 32 → Word → ExecM vm (Bool × Word)
  | 0, _, sz => return (true, sz)
  | left + 1, off, sz => do
      let (bytes, complete) ← readKernel k ip off (.ofNat 32 proghdrSize)
      let ph := readProghdr bytes
      if !complete then return (false, sz)
      else if ph.type ≠ elfProgLoad then
        loadLoop pagetable ip left (off + .ofNat 32 proghdrSize) sz
      else if ph.memsz < ph.filesz then return (false, sz)
      else if ph.vaddr + ph.memsz < ph.vaddr then return (false, sz)
      else if ph.vaddr % .ofNat 64 pgsize ≠ 0 then return (false, sz)
      else do
        let sz1 ← onMemory
          (vm.uvmalloc pagetable sz (ph.vaddr + ph.memsz) (flags2perm ph.flags))
        if sz1 = 0 then return (false, sz)
        else if ← loadseg k pagetable ph.vaddr ip (ph.off.setWidth 32)
            (ph.filesz.setWidth 32) then
          loadLoop pagetable ip left (off + .ofNat 32 proghdrSize) sz1
        else return (false, sz1)

/-! ## The user stack -/

/-- The loop that pushes the argument strings; the result is the stack pointer
and the addresses of the strings. -/
def pushArguments (pagetable : vm.Pagetable) (stackbase : Word) :
    List (List Byte) → Word → List Word → ExecM vm (Option (Word × List Word))
  | [], sp, ustack => return some (sp, ustack)
  | argument :: rest, sp, ustack => do
      if vm.maxarg ≤ ustack.length then return none
      else
        let sp := alignDown (sp - .ofNat 64 (argument.length + 1))
        if sp < stackbase then return none
        else if ← onMemory (vm.copyout pagetable sp (argument ++ [0])) then
          pushArguments pagetable stackbase rest sp (ustack ++ [sp])
        else return none

/-- The stack with the strings and the array of pointers to them. -/
def pushStack (pagetable : vm.Pagetable) (argv : List (List Byte))
    (sz : Word) : ExecM vm (Option Word) := do
  let stackbase := sz - .ofNat 64 pgsize
  match ← pushArguments pagetable stackbase argv sz [] with
  | none => return none
  | some (sp, ustack) =>
      let sp := alignDown (sp - .ofNat 64 ((ustack.length + 1) * 8))
      if sp < stackbase then return none
      else if ← onMemory
          (vm.copyout pagetable sp (pointerBytes (ustack ++ [0]))) then
        return some sp
      else return none

/-! ## `exec` -/

/-- The exit `bad` after the inode has been released. -/
def badImage (pagetable : vm.Pagetable) (sz : Word) : ExecM vm Int := do
  onMemory fun memory => ((), vm.procFreepagetable pagetable sz memory)
  return -1

/-- The exit `bad` while the inode is locked and there is no page table. -/
def badFile (ip : Nat) : ExecM vm Int := do
  leave k ip
  return -1

/-- Change the user image of process `p`. -/
def setImage (p : Nat) (image : UserImage vm) : ExecM vm Unit :=
  modify fun machine =>
    { machine with image := Function.update machine.image p image }

/-- Commit to the new user image. -/
def commit (p : Nat) (path : Path) (pagetable : vm.Pagetable)
    (sz entry sp : Word) : ExecM vm Unit := do
  let old := (← get).image p
  setImage p
    ⟨pagetable, sz, ⟨entry, sp, sp⟩, safestrcpy (lastElement path)⟩
  onMemory fun memory =>
    ((), vm.procFreepagetable old.pagetable old.sz memory)

/-- `exec` after the program has been loaded: the stack and the commit. -/
def execStack (p : Nat) (path : Path) (argv : List (List Byte))
    (pagetable : vm.Pagetable) (entry sz : Word) : ExecM vm Int := do
  let sz := pgRoundUp sz
  let sz1 ← onMemory
    (vm.uvmalloc pagetable sz (sz + .ofNat 64 (2 * pgsize)) pteW)
  if sz1 = 0 then badImage pagetable sz
  else do
    onMemory fun memory =>
      ((), vm.uvmclear pagetable (sz1 - .ofNat 64 (2 * pgsize)) memory)
    match ← pushStack pagetable argv sz1 with
    | none => badImage pagetable sz1
    | some sp => do
        commit p path pagetable sz1 entry sp
        return argv.length

/-- `exec` after the check of the permissions. -/
def execLoad (p : Nat) (path : Path) (argv : List (List Byte)) (ip : Nat) :
    ExecM vm Int := do
  let (bytes, complete) ← readKernel k ip 0 (.ofNat 32 elfhdrSize)
  let elf := readElfhdr bytes
  if !complete then badFile k ip
  else if elf.magic ≠ elfMagic then badFile k ip
  else
    match ← onMemory (vm.procPagetable p) with
    | none => badFile k ip
    | some pagetable => do
        let (loaded, sz) ←
          loadLoop k pagetable ip elf.phnum (elf.phoff.setWidth 32) 0
        if loaded then do
          leave k ip
          execStack p path argv pagetable elf.entry sz
        else do
          onMemory fun memory => ((), vm.procFreepagetable pagetable sz memory)
          badFile k ip

/-- `exec` with the inode locked: the check of the execute permission. -/
def execLocked (p : Nat) (path : Path) (argv : List (List Byte)) (ip : Nat) :
    ExecM vm Int := do
  let permissions := (← onFs (inodeAt ip)).copy.permissions
  if permissions ≠ 0 ∧ ownerExec permissions = false then do
    leave k ip
    return -1
  else execLoad k p path argv ip

/-- `exec` after the lookup of the path. -/
def execFound (p : Nat) (path : Path) (argv : List (List Byte)) :
    Option Nat → ExecM vm Int
  | none => do
      onFs endOp
      return -1
  | some ip => do
      onFs (ilock k ip)
      execLocked k p path argv ip

/-- `exec`. -/
def exec (p : Nat) (path : Path) (argv : List (List Byte)) :
    ExecM vm Int := do
  onFs beginOp
  execFound k p path argv (← onFs (namei k p path))

/-! ## What `exec` does to the file system -/

variable {k : Kernel} {frame : Frame} {held : List Hold}

theorem onFs_spec {α : Type} {program : FsM α} {pre : Fs → Prop}
    {post : α → Fs → Prop} (triple : Triple pre program post) :
    Triple (fun machine : Machine vm => pre machine.fs) (onFs program)
      (fun result machine => post result machine.fs) :=
  triple.onPart (fun _ _ => rfl)

section Kept

variable {pre post : Fs → Prop}

theorem onMemory_spec {α : Type} (routine : vm.Memory → α × vm.Memory) :
    Triple (fun machine : Machine vm => pre machine.fs) (onMemory routine)
      (fun _ machine => pre machine.fs) := by
  rintro before holds result after ⟨⟩
  exact holds

theorem get_spec :
    Triple (fun machine : Machine vm => pre machine.fs)
      (get : ExecM vm (Machine vm)) (fun _ machine => pre machine.fs) :=
  Triple.get.weaken (fun _ _ keeps => keeps.1)

theorem setImage_spec (p : Nat) (image : UserImage vm) :
    Triple (fun machine : Machine vm => pre machine.fs) (setImage p image)
      (fun _ machine => pre machine.fs) :=
  Triple.modify (fun _ keeps => keeps)

theorem pushArguments_spec (pagetable : vm.Pagetable) (stackbase : Word)
    (argv : List (List Byte)) (sp : Word) (ustack : List Word) :
    Triple (fun machine : Machine vm => pre machine.fs)
      (pushArguments pagetable stackbase argv sp ustack)
      (fun _ machine => pre machine.fs) := by
  induction argv generalizing sp ustack with
  | nil => exact Triple.keep _
  | cons argument rest induction =>
      refine Triple.ite (fun _ => Triple.keep _) (fun _ => ?_)
      refine Triple.ite (fun _ => Triple.keep _) (fun _ => ?_)
      refine Triple.bind (onMemory_spec _) (fun copied => ?_)
      exact Triple.ite (fun _ => induction _ _) (fun _ => Triple.keep _)

theorem pushStack_spec (pagetable : vm.Pagetable) (argv : List (List Byte))
    (sz : Word) :
    Triple (fun machine : Machine vm => pre machine.fs)
      (pushStack pagetable argv sz) (fun _ machine => pre machine.fs) := by
  refine Triple.bind (pushArguments_spec pagetable _ argv sz [])
    (fun pushed => ?_)
  cases pushed with
  | none => exact Triple.keep _
  | some pushed =>
      refine Triple.ite (fun _ => Triple.keep _) (fun _ => ?_)
      refine Triple.bind (onMemory_spec _) (fun copied => ?_)
      exact Triple.ite (fun _ => Triple.keep _) (fun _ => Triple.keep _)

theorem badImage_spec (pagetable : vm.Pagetable) (sz : Word) :
    Triple (fun machine : Machine vm => pre machine.fs)
      (badImage pagetable sz) (fun _ machine => pre machine.fs) := by
  refine Triple.bind (onMemory_spec _) (fun _ => ?_)
  exact Triple.keep _

theorem commit_spec (p : Nat) (path : Path) (pagetable : vm.Pagetable)
    (sz entry sp : Word) :
    Triple (fun machine : Machine vm => pre machine.fs)
      (commit p path pagetable sz entry sp)
      (fun _ machine => pre machine.fs) := by
  refine Triple.bind get_spec (fun machine => ?_)
  refine Triple.bind (setImage_spec p _) (fun _ => ?_)
  exact onMemory_spec _

/-- The stack and the commit do not touch the file system. -/
theorem execStack_spec (p : Nat) (path : Path) (argv : List (List Byte))
    (pagetable : vm.Pagetable) (entry sz : Word) :
    Triple (fun machine : Machine vm => pre machine.fs)
      (execStack p path argv pagetable entry sz)
      (fun _ machine => pre machine.fs) := by
  refine Triple.bind (onMemory_spec _) (fun sz1 => ?_)
  refine Triple.ite (fun _ => badImage_spec pagetable _) (fun _ => ?_)
  refine Triple.bind (onMemory_spec _) (fun _ => ?_)
  refine Triple.bind (pushStack_spec pagetable argv sz1) (fun pushed => ?_)
  cases pushed with
  | none => exact badImage_spec pagetable sz1
  | some sp =>
      refine Triple.bind (commit_spec p path pagetable sz1 entry sp)
        (fun _ => ?_)
      exact Triple.keep _

/-! ## Loading only reads the inode -/

section Reading

variable {ip : Nat}
variable (reads : ∀ off n,
  Triple pre (readi k ip kernelMemory off n) (fun _ => pre))
include reads

theorem readKernel_spec (off n : BitVec 32) :
    Triple (fun machine : Machine vm => pre machine.fs)
      (readKernel k ip off n) (fun _ machine => pre machine.fs) := by
  refine Triple.bind (onFs_spec (reads off n)) (fun _ => ?_)
  exact Triple.keep _

theorem loadsegLoop_spec (pagetable : vm.Pagetable) (va : Word)
    (offset : BitVec 32) (sz : Nat) (pages : List Nat) :
    Triple (fun machine : Machine vm => pre machine.fs)
      (loadsegLoop k pagetable va ip offset sz pages)
      (fun _ machine => pre machine.fs) := by
  induction pages with
  | nil => exact Triple.keep _
  | cons page rest induction =>
      refine Triple.bind get_spec (fun machine => ?_)
      apply Triple.ite
      · intro _
        exact Triple.throw
      · intro _
        refine Triple.bind (readKernel_spec reads _ _) (fun copied => ?_)
        refine Triple.bind (onMemory_spec _) (fun _ => ?_)
        apply Triple.ite
        · intro _
          exact induction
        · intro _
          exact Triple.keep _

theorem loadLoop_spec (pagetable : vm.Pagetable) (left : Nat)
    (off : BitVec 32) (sz : Word) :
    Triple (fun machine : Machine vm => pre machine.fs)
      (loadLoop k pagetable ip left off sz)
      (fun _ machine => pre machine.fs) := by
  induction left generalizing off sz with
  | zero => exact Triple.keep _
  | succ left induction =>
      refine Triple.bind (readKernel_spec reads _ _) (fun copied => ?_)
      refine Triple.ite (fun _ => Triple.keep _) (fun _ => ?_)
      refine Triple.ite (fun _ => induction _ _) (fun _ => ?_)
      refine Triple.ite (fun _ => Triple.keep _) (fun _ => ?_)
      refine Triple.ite (fun _ => Triple.keep _) (fun _ => ?_)
      refine Triple.ite (fun _ => Triple.keep _) (fun _ => ?_)
      refine Triple.bind (onMemory_spec _) (fun sz1 => ?_)
      refine Triple.ite (fun _ => Triple.keep _) (fun _ => ?_)
      refine Triple.bind (loadsegLoop_spec reads _ _ _ _ _)
        (fun loaded => ?_)
      exact Triple.ite (fun _ => induction _ _) (fun _ => Triple.keep _)

/-- What `exec` does with the inode locked: it reads, and leaves the inode once
on every path. -/
theorem execLocked_spec
    (leaves : Triple (fun machine : Machine vm => pre machine.fs)
      (leave k ip) (fun _ machine => post machine.fs))
    (p : Nat) (path : Path) (argv : List (List Byte)) :
    Triple (fun machine : Machine vm => pre machine.fs)
      (execLocked k p path argv ip) (fun _ machine => post machine.fs) := by
  have bad : Triple (fun machine : Machine vm => pre machine.fs)
      (badFile k ip) (fun _ machine => post machine.fs) :=
    Triple.bind leaves (fun _ => Triple.keep _)
  refine Triple.bind ((onFs_spec (inodeAt_spec ip)).weaken
    (fun _ _ kept => kept.1)) (fun inode => ?_)
  refine Triple.ite (fun _ => bad) (fun _ => ?_)
  refine Triple.bind (readKernel_spec reads _ _) (fun copied => ?_)
  refine Triple.ite (fun _ => bad) (fun _ => ?_)
  refine Triple.ite (fun _ => bad) (fun _ => ?_)
  refine Triple.bind (onMemory_spec _) (fun made => ?_)
  cases made with
  | none => exact bad
  | some pagetable =>
      refine Triple.bind (loadLoop_spec reads pagetable _ _ _)
        (fun loaded => ?_)
      refine Triple.ite (fun _ => ?_) (fun _ => ?_)
      · refine Triple.bind leaves (fun _ => ?_)
        exact execStack_spec p path argv pagetable _ _
      · refine Triple.bind (onMemory_spec _) (fun _ => ?_)
        exact bad

end Reading

end Kept

/--
The rule of `exec`: it is as good as the lookup of the path, one lock, reads,
one `iunlockput`, and one `end_op`.
-/
theorem exec_rule {pre begun post : Fs → Prop} {p : Nat} {path : Path}
    (found locked : Nat → Fs → Prop)
    (begins : Triple pre beginOp (fun _ => begun))
    (looks : Triple begun (namei k p path)
      (fun result => result.elim begun found))
    (locks : ∀ ip, Triple (found ip) (ilock k ip) (fun _ => locked ip))
    (reads : ∀ ip off n,
      Triple (locked ip) (readi k ip kernelMemory off n) (fun _ => locked ip))
    (drops : ∀ ip, Triple (locked ip) (iunlockput k ip) (fun _ => begun))
    (ends : Triple begun endOp (fun _ => post))
    (argv : List (List Byte)) :
    Triple (fun machine : Machine vm => pre machine.fs) (exec k p path argv)
      (fun _ machine => post machine.fs) := by
  refine Triple.bind (onFs_spec begins) (fun _ => ?_)
  refine Triple.bind (onFs_spec looks) (fun result => ?_)
  cases result with
  | none =>
      refine Triple.bind (onFs_spec ends) (fun _ => ?_)
      exact Triple.keep _
  | some ip =>
      refine Triple.bind (onFs_spec (locks ip)) (fun _ => ?_)
      refine execLocked_spec (reads ip) ?_ p path argv
      exact Triple.bind (onFs_spec (drops ip)) (fun _ => onFs_spec ends)

/-! ## `exec` keeps the invariant -/

/-- The invariant of the file system, on the machine. -/
def Keeps (vm : Vm) (k : Kernel) (frame : Frame) (held : List Hold)
    (machine : Machine vm) : Prop :=
  Inv k frame held machine.fs

theorem exec_spec (frees : frame.AllowsFree) {p : Nat}
    (cwd : CwdHeld frame held p) (path : Path) (argv : List (List Byte)) :
    Triple (Keeps vm k frame held) (exec k p path argv)
      (fun _ => Keeps vm k frame held) := by
  refine exec_rule
    (fun ip state => ∃ inum loaded,
      Inv k frame (⟨ip, inum, loaded⟩ :: held) state)
    (fun ip state => ∃ inum type,
      Inv k frame (⟨ip, inum, some type⟩ :: held) state)
    beginOp_spec ?_ ?_ ?_ ?_ endOp_spec argv
  · refine (namei_spec frees cwd path).weaken ?_
    rintro (_ | ip) state resolved
    · exact resolved
    · exact resolved
  · intro ip
    refine Triple.exists_pre fun inum => Triple.exists_pre fun loaded => ?_
    exact ilock_exists.weaken (fun _ _ holds => ⟨_, holds⟩)
  · intro ip off n
    refine Triple.exists_pre fun inum => Triple.exists_pre fun type => ?_
    exact (readi_spec List.mem_cons_self _ off n).weaken
      (fun _ _ holds => ⟨_, _, holds⟩)
  · intro ip
    refine Triple.exists_pre fun inum => Triple.exists_pre fun type => ?_
    exact iunlockput_spec ⟨ip, inum, some type⟩ frees

end OSCourse.FileSystem
