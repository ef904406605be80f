import OSCourse.FileSystem.Permissions
import OSCourse.FileSystem.Stable

/-!
# What an open grants

`sys_open` reads its mode in three ways: `check_permission` compares the whole
word with the three access modes, the new file gets its rights from single
bits, and another bit truncates the inode.  The owner bits of the inode bound
what the call grants exactly when the mode is one of the three, or when the
inode grants what the bits of the mode ask for anyway.
-/

namespace OSCourse.FileSystem

open OSCourse.Library.ByteBlock
open OSCourse.Library.Hoare

/-- `sys_open` up to its checks: the inode it opens, locked. -/
def openLookup (k : Kernel) (p : Nat) (path : Path) (omode : BitVec 32) :
    FsM (Option Nat) := do
  beginOp
  openInode k p path omode

/--
What a call left in the file `f` and in the inode `ip` stays within the owner
bits of the inode as the call found it.
-/
structure WithinOwnerBits (found next : Fs) (ip f : Nat) : Prop where
  read : (next.file f).readable = true →
    ownerRead (found.inode ip).copy.permissions = true
  write : (next.file f).writable = true →
    ownerWrite (found.inode ip).copy.permissions = true
  trunc : (next.inode ip).copy.size < (found.inode ip).copy.size →
    ownerWrite (found.inode ip).copy.permissions = true

/-- The modes that `check_permission` compares with. -/
def AccessMode (omode : BitVec 32) : Prop :=
  omode = oRdonly ∨ omode = oWronly ∨ omode = oRdwr

/-- The owner bits of an inode grant what the bits of the mode ask for. -/
structure Granted (copy : Dinode) (omode : BitVec 32) : Prop where
  read : hasFlag omode oWronly = false → ownerRead copy.permissions = true
  write : hasFlag omode oWronly = true ∨ hasFlag omode oRdwr = true →
    ownerWrite copy.permissions = true
  trunc : hasFlag omode oTrunc = true → copy.type = tFile → copy.size ≠ 0 →
    ownerWrite copy.permissions = true

variable {k : Kernel} {p ip f : Nat} {omode : BitVec 32}

/-- For the three access modes the check asks for what the bits ask for. -/
theorem Granted.of_checked {copy : Dinode} (access : AccessMode omode)
    (checked : checkPermission copy.permissions omode = true) :
    Granted copy omode := by
  rcases access with rfl | rfl | rfl
  · constructor
    case read =>
      intro _
      simpa [checkPermission, oRdonly, oRdwr, oWronly] using checked
    case write => simp [hasFlag, oRdonly]
    case trunc => simp [hasFlag, oRdonly]
  · constructor
    case read => simp [hasFlag, oWronly]
    case write =>
      intro _
      simpa [checkPermission, oRdonly, oRdwr, oWronly] using checked
    case trunc => simp [hasFlag, oWronly, oTrunc]
  · have both : ownerRead copy.permissions = true ∧
        ownerWrite copy.permissions = true := by
      simpa [checkPermission, oRdonly, oRdwr, oWronly] using checked
    exact ⟨fun _ => both.1, fun _ => both.2, fun _ _ _ => both.2⟩

/-! ## The truncation -/

section Truncation

variable {files : Nat → File} {procs : Nat → Proc}

/-- The file table and the processes. -/
def SameTables (files : Nat → File) (procs : Nat → Proc) (state : Fs) : Prop :=
  state.file = files ∧ state.proc = procs

theorem stable_sameTables : Stable (SameTables files procs) :=
  ⟨fun _ _ _ same => same, fun _ _ _ same => same⟩

/-- `itrunc` leaves an empty inode, the file table and the processes. -/
theorem itrunc_empties :
    Triple (SameTables files procs) (itrunc k ip)
      (fun _ state => SameTables files procs state ∧
        (state.inode ip).copy.size = 0) := by
  refine Triple.bind (stable_sameTables.truncDirect _) (fun _ => ?_)
  refine Triple.bind stable_sameTables.truncIndirect (fun _ => ?_)
  intro before same result after run
  rcases bind_eq_ok.mp run with ⟨_, cut, ⟨⟩, updated⟩
  rw [iupdate_run] at updated
  cases updated
  refine ⟨same, ?_⟩
  simp [Fs.withBlock, Fs.withInode, Inode.edit]

/-- The size that the truncation by `sys_open` leaves. -/
def openedSize (copy : Dinode) (omode : BitVec 32) : BitVec 32 :=
  if hasFlag omode oTrunc = true ∧ copy.type = tFile then 0 else copy.size

theorem openTrunc_sizes {state : Fs} :
    Triple (fun current => current = state) (openTrunc k ip omode)
      (fun _ next => SameTables state.file state.proc next ∧
        (next.inode ip).copy.size =
          openedSize (state.inode ip).copy omode) := by
  rintro before rfl result after run
  rcases bind_eq_ok.mp run with ⟨inode, _, ⟨⟩, run⟩
  unfold openedSize
  split at run
  · next truncates =>
    rw [if_pos truncates]
    exact itrunc_empties before ⟨rfl, rfl⟩ result after run
  · next keeps =>
    rw [if_neg keeps]
    cases run
    exact ⟨⟨rfl, rfl⟩, rfl⟩

end Truncation

/-! ## The descriptor -/

theorem openedFile_rights (inode : Inode) (file : File) :
    (openedFile inode ip omode file).ip = ip ∧
      (openedFile inode ip omode file).readable = !hasFlag omode oWronly ∧
      (openedFile inode ip omode file).writable =
        (hasFlag omode oWronly || hasFlag omode oRdwr) := by
  unfold openedFile
  split <;> exact ⟨rfl, rfl, rfl⟩

/-- What an open that returned the descriptor `fd` did with the inode `ip`. -/
structure OpenedAs (p ip fd : Nat) (omode : BitVec 32)
    (found next : Fs) (f : Nat) : Prop where
  descriptor : (next.proc p).ofile fd = some f
  ip_eq : (next.file f).ip = ip
  readable : (next.file f).readable = !hasFlag omode oWronly
  writable : (next.file f).writable =
    (hasFlag omode oWronly || hasFlag omode oRdwr)
  size : (next.inode ip).copy.size = openedSize (found.inode ip).copy omode

/-- `iunlock` changes no field of the inode but its lock. -/
theorem iunlock_keeps {state : Fs} :
    Triple (fun current => current = state) (iunlock ip)
      (fun _ next => SameTables state.file state.proc next ∧
        (next.inode ip).copy = (state.inode ip).copy) := by
  rintro before rfl result after run
  rcases bind_eq_ok.mp run with ⟨inode, _, ⟨⟩, run⟩
  split at run
  · cases run
  · cases run
    refine ⟨⟨rfl, rfl⟩, ?_⟩
    simp [Fs.withInode]

theorem openFile_opens {fd : Nat} {state next : Fs} {result : Int}
    (assigned : (state.proc p).ofile fd = some f)
    (run : openFile k ip f fd omode state = .ok (result, next)) :
    result = fd ∧ OpenedAs p ip fd omode state next f := by
  rcases bind_eq_ok.mp run with ⟨inode, _, ⟨⟩, run⟩
  rcases bind_eq_ok.mp run with ⟨_, filled, ⟨⟩, run⟩
  rcases bind_eq_ok.mp run with ⟨_, cut, truncated, run⟩
  rcases bind_eq_ok.mp run with ⟨_, unlocked, released, run⟩
  rcases bind_eq_ok.mp run with ⟨_, ended, ⟨⟩, ⟨⟩⟩
  rcases openTrunc_sizes _ rfl _ _ truncated with ⟨⟨files, procs⟩, size⟩
  rcases iunlock_keeps _ rfl _ _ released with ⟨⟨files', procs'⟩, copy⟩
  have file : unlocked.file f =
      openedFile (state.inode ip) ip omode (state.file f) := by
    rw [files', files]
    exact Function.update_self ..
  rcases openedFile_rights (state.inode ip) (state.file f) with
    ⟨ip_eq, readable, writable⟩
  refine ⟨rfl, ?_⟩
  constructor
  case descriptor =>
    show (unlocked.proc p).ofile fd = some f
    rw [procs', procs]
    exact assigned
  case ip_eq => exact (congrArg File.ip file).trans ip_eq
  case readable => exact (congrArg File.readable file).trans readable
  case writable => exact (congrArg File.writable file).trans writable
  case size => exact (congrArg Dinode.size copy).trans size

theorem fdalloc_assigns {fd : Nat} {state next : Fs}
    (run : fdalloc k p f state = .ok (some fd, next)) :
    (next.proc p).ofile fd = some f ∧ next.inode = state.inode := by
  rw [fdalloc_run] at run
  split at run
  · cases run
  · rcases bind_eq_ok.mp run with ⟨_, _, ⟨⟩, ⟨⟩⟩
    refine ⟨?_, rfl⟩
    simp

theorem filealloc_inode {state next : Fs}
    (run : filealloc k state = .ok (some f, next)) :
    next.inode = state.inode := by
  rw [filealloc_run] at run
  split at run
  · cases run
  · rcases bind_eq_ok.mp run with ⟨_, _, ⟨⟩, ⟨⟩⟩
    rfl

/-- The exits of `sys_open` with the inode locked return no descriptor. -/
theorem openBad_negative {state next : Fs} {result : Int}
    (run : openBad k ip state = .ok (result, next)) : result = -1 := by
  rcases bind_eq_ok.mp run with ⟨_, _, _, run⟩
  rcases bind_eq_ok.mp run with ⟨_, _, _, ⟨⟩⟩
  rfl

/-- An open that returns a descriptor passed the check of its mode. -/
theorem openChecked_opens {found next : Fs} {result : Int}
    (run : openChecked k p ip omode found = .ok (result, next))
    (descriptor : 0 ≤ result) :
    checkPermission (found.inode ip).copy.permissions omode = true ∧
      ∃ f, OpenedAs p ip result.toNat omode found next f := by
  have notBad : ∀ {state : Fs},
      ¬ openBad k ip state = .ok (result, next) := by
    intro state bad
    rw [openBad_negative bad] at descriptor
    cases descriptor
  rcases bind_eq_ok.mp run with ⟨inode, _, ⟨⟩, run⟩
  split at run
  · exact absurd run notBad
  next checked =>
  split at run
  · exact absurd run notBad
  rcases bind_eq_ok.mp run with ⟨answer, allocated, alloc, run⟩
  cases answer with
  | none => exact absurd run notBad
  | some f =>
      rcases bind_eq_ok.mp run with ⟨answer, assigned, assign, run⟩
      cases answer with
      | none =>
          rcases bind_eq_ok.mp run with ⟨_, _, _, run⟩
          exact absurd run notBad
      | some fd =>
          rcases fdalloc_assigns assign with ⟨descriptor, inode⟩
          rcases openFile_opens descriptor run with ⟨rfl, opened⟩
          have same : assigned.inode = found.inode :=
            inode.trans (filealloc_inode alloc)
          refine ⟨by simpa using checked, f, ?_⟩
          exact { opened with size := same ▸ opened.size }

/-- The truncation makes a file shorter. -/
theorem openedSize_lt_iff (copy : Dinode) (omode : BitVec 32) :
    openedSize copy omode < copy.size ↔
      hasFlag omode oTrunc = true ∧ copy.type = tFile ∧ copy.size ≠ 0 := by
  unfold openedSize
  split
  · next truncates =>
    have shorter : (0 : BitVec 32) < copy.size ↔ copy.size ≠ 0 := by
      constructor
      · rintro less equal
        rw [equal] at less
        exact absurd less (by decide)
      · intro unequal
        bv_omega
    rw [shorter]
    exact ⟨fun size => ⟨truncates.1, truncates.2, size⟩, fun all => all.2.2⟩
  · next keeps =>
    constructor
    · intro less
      exact absurd less (BitVec.lt_irrefl _)
    · rintro ⟨flag, file, _⟩
      exact absurd ⟨flag, file⟩ keeps

/-- What was opened stays within the owner bits exactly if these grant what
the bits of the mode ask for. -/
theorem OpenedAs.within_iff {fd : Nat} {found next : Fs}
    (opened : OpenedAs p ip fd omode found next f) :
    WithinOwnerBits found next ip f ↔
      Granted (found.inode ip).copy omode := by
  have shorter := openedSize_lt_iff (found.inode ip).copy omode
  rw [← opened.size] at shorter
  have readable : (next.file f).readable = true ↔
      hasFlag omode oWronly = false := by
    rw [opened.readable, Bool.not_eq_true']
  have writable : (next.file f).writable = true ↔
      hasFlag omode oWronly = true ∨ hasFlag omode oRdwr = true := by
    rw [opened.writable, Bool.or_eq_true]
  constructor
  · intro within
    constructor
    case read => exact fun asked => within.read (readable.mpr asked)
    case write => exact fun asked => within.write (writable.mpr asked)
    case trunc =>
      intro flag file size
      exact within.trunc (shorter.mpr ⟨flag, file, size⟩)
  · intro granted
    constructor
    case read => exact fun given => granted.read (readable.mp given)
    case write => exact fun given => granted.write (writable.mp given)
    case trunc =>
      intro less
      rcases shorter.mp less with ⟨flag, file, size⟩
      exact granted.trunc flag file size

/-- An open that returns a descriptor looked up an inode that passed the check
of its mode. -/
theorem sysOpen_opens {state next : Fs} {path : Path} {result : Int}
    (returned : sysOpen k p (some path) omode state = .ok (result, next))
    (descriptor : 0 ≤ result) :
    ∃ ip found f,
      openLookup k p path omode state = .ok (some ip, found) ∧
        checkPermission (found.inode ip).copy.permissions omode = true ∧
        OpenedAs p ip result.toNat omode found next f := by
  rcases bind_eq_ok.mp returned with ⟨_, begun, begin, run⟩
  rcases bind_eq_ok.mp run with ⟨answer, found, walked, run⟩
  cases answer with
  | none =>
      rcases bind_eq_ok.mp run with ⟨_, _, _, ⟨⟩⟩
      cases descriptor
  | some ip =>
      rcases openChecked_opens run descriptor with ⟨checked, f, opened⟩
      exact ⟨ip, found, f, bind_eq_ok.mpr ⟨_, _, begin, walked⟩, checked,
        opened⟩

/--
In every state, an open that returns a descriptor keeps the new file and the
truncation within the owner bits of the inode exactly when its mode is one of
the three access modes, which `check_permission` knows, or when the owner bits
grant what the bits of the mode ask for.
-/
theorem open_within_iff (k : Kernel) (state : Fs) (p : Nat) (path : Path)
    (omode : BitVec 32) (result : Int) (next : Fs)
    (returned : sysOpen k p (some path) omode state = .ok (result, next))
    (descriptor : 0 ≤ result) :
    ∃ ip found f,
      openLookup k p path omode state = .ok (some ip, found) ∧
        (next.proc p).ofile result.toNat = some f ∧
        (next.file f).ip = ip ∧
        (WithinOwnerBits found next ip f ↔
          AccessMode omode ∨ Granted (found.inode ip).copy omode) := by
  rcases sysOpen_opens returned descriptor with
    ⟨ip, found, f, looked, checked, opened⟩
  refine ⟨ip, found, f, looked, opened.descriptor, opened.ip_eq, ?_⟩
  rw [opened.within_iff]
  constructor
  · exact Or.inr
  · rintro (access | granted)
    · exact Granted.of_checked access checked
    · exact granted

theorem ok_of_returnedValue {run : Except Stop (Int × Fs)} {value : Int}
    (returned : returnedValue run = some value) :
    ∃ next, run = .ok (value, next) := by
  cases run with
  | error stop => cases returned
  | ok pair =>
      cases returned
      exact ⟨pair.2, rfl⟩

/-- `O_RDWR` on a file that grants reading and writing. -/
theorem open_within_iff_readWrite :
    ∃ next ip found f,
      (fileSystem smallKernel (smallDisk (smallFile 5 5 384))).Reachable
          (smallBoot (smallFile 5 5 384)) ∧
        sysOpen smallKernel 0 (some [slash, 102]) oRdwr
          (smallBoot (smallFile 5 5 384)) = .ok (0, next) ∧
        openLookup smallKernel 0 [slash, 102] oRdwr
          (smallBoot (smallFile 5 5 384)) = .ok (some ip, found) ∧
        (next.proc 0).ofile 0 = some f ∧
        WithinOwnerBits found next ip f := by
  have value : returnedValue
      (sysOpen smallKernel 0 (some [slash, 102]) oRdwr
        (smallBoot (smallFile 5 5 384))) = some 0 := by
    decide +kernel
  rcases ok_of_returnedValue value with ⟨next, returned⟩
  rcases open_within_iff smallKernel _ 0 _ oRdwr 0 next returned (by decide)
    with ⟨ip, found, f, looked, descriptor, _, within⟩
  exact ⟨next, ip, found, f, .start ⟨smallBoot_booted _, rfl⟩, returned,
    looked, descriptor, within.mpr (.inl (.inr (.inr rfl)))⟩

/-- The permissions of the inode that a lookup answers with. -/
def lookedPermissions :
    Except Stop (Option Nat × Fs) → Option (BitVec 16)
  | .ok (some ip, found) => some (found.inode ip).copy.permissions
  | _ => none

/-- `O_CREATE | O_WRONLY | O_TRUNC` on a file with no permissions: the mode is
none of those that `check_permission` compares with. -/
theorem open_exceeds_ownerBits :
    ∃ next ip found f,
      (fileSystem smallKernel (smallDisk (smallFile 5 5 0))).Reachable
          (smallBoot (smallFile 5 5 0)) ∧
        sysOpen smallKernel 0 (some [slash, 102])
          (oCreate ||| oWronly ||| oTrunc) (smallBoot (smallFile 5 5 0)) =
            .ok (0, next) ∧
        openLookup smallKernel 0 [slash, 102]
          (oCreate ||| oWronly ||| oTrunc) (smallBoot (smallFile 5 5 0)) =
            .ok (some ip, found) ∧
        (next.proc 0).ofile 0 = some f ∧
        (next.file f).ip = ip ∧
        ¬ WithinOwnerBits found next ip f := by
  have value : returnedValue
      (sysOpen smallKernel 0 (some [slash, 102])
        (oCreate ||| oWronly ||| oTrunc) (smallBoot (smallFile 5 5 0))) =
      some 0 := by
    decide +kernel
  rcases ok_of_returnedValue value with ⟨next, returned⟩
  rcases sysOpen_opens returned (by decide) with
    ⟨ip, found, f, looked, _, opened⟩
  have permissions : lookedPermissions
      (openLookup smallKernel 0 [slash, 102]
        (oCreate ||| oWronly ||| oTrunc) (smallBoot (smallFile 5 5 0))) =
      some 0 := by
    decide +kernel
  refine ⟨next, ip, found, f, .start ⟨smallBoot_booted _, rfl⟩, returned,
    looked, opened.descriptor, opened.ip_eq, ?_⟩
  rw [opened.within_iff]
  intro granted
  have asked : hasFlag (oCreate ||| oWronly ||| oTrunc) oWronly = true := by
    decide
  have write := granted.write (.inl asked)
  rw [looked] at permissions
  rw [Option.some.inj permissions] at write
  exact absurd write (by decide)

end OSCourse.FileSystem
