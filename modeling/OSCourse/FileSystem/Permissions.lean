import OSCourse.FileSystem.Tables

/-!
# Permissions survive every run

In every run from a consistent disk, `getperm` returns what the history of the
run asks for: the mode of the last `chmod` of the inode since it was allocated,
the default of `ialloc`, or what was on the disk at the start.  The kernel
trusts the disk: on a disk where a file owns a block of inodes, a write to that
file changes permissions.
-/

namespace OSCourse.FileSystem

open OSCourse.Library.ByteBlock
open OSCourse.Library.Hoare
open OSCourse.Library.TransitionSystem

/-- The file system started on the disk `disk`; each call is one step. -/
def fileSystem (k : Kernel) (disk : Disk) : System Fs (Nat × Call) where
  start state := Booted state ∧ state.disk = disk
  step state label next :=
    ∃ result, runCall k label.1 label.2 state = .ok (result, next)

/-- A disk on which every block in use has one owner, as `mkfs` makes it. -/
def Consistent (sb : Superblock) (disk : Disk) : Prop :=
  ∃ own, Image sb own none disk

/-- The permissions on the disk at the start. -/
def initialPermissions (k : Kernel) (disk : Disk) (inum : Nat) : BitVec 16 :=
  (k.sb.dinode disk inum).permissions

/-- The lookup of a path by a call. -/
def lookup (k : Kernel) (p : Nat) (path : Path) : FsM (Option Nat) := do
  beginOp
  namei k p path

/-- What `getperm` returns for the inode that was looked up. -/
def expectedPermissions (k : Kernel) (disk : Disk) (history : List Event)
    (found : Fs) : Option Nat → Int
  | none => -1
  | some ip =>
      (lastPermissions (initialPermissions k disk) history
        (found.inode ip).inum).toInt

/-- In every run, `getperm` returns what the history asks for. -/
def GetpermLaw (k : Kernel) (disk : Disk) : Prop :=
  ∀ state, (fileSystem k disk).Reachable state →
    ∀ p path result next,
      sysGetperm k p (some path) state = .ok (result, next) →
        ∃ answer found, lookup k p path state = .ok (answer, found) ∧
          result = expectedPermissions k disk state.history found answer

variable {k : Kernel} {disk : Disk}

/-- At boot nothing is held. -/
theorem Booted.ready {state : Fs} (booted : Booted state)
    (consistent : Consistent k.sb state.disk) :
    Ready k (initialPermissions k state.disk) state := by
  rcases consistent with ⟨own, image⟩
  refine ⟨⟨initialPermissions k state.disk, [], state.file, state.proc,
    fun _ _ _ => True⟩, [], rfl, fun _ _ _ => trivial, ?_, own, ?_⟩
  · constructor
    case nodup => exact List.nodup_nil
    case cwds => simp
    case cwdHeld => simp [booted.cwds]
    case files => simp
    case fileHeld => simp [booted.files]
    case descriptors => simp [booted.descriptors]
    case counted => simp [booted.files]
  · constructor
    case image => exact image
    case table =>
      constructor
      case counted => simp [booted.inodes, holdCount]
      case unique => simp [booted.inodes]
      case range => simp [booted.inodes]
      case loaded => simp [booted.inodes]
      case holds => simp
    case slots => simp
    case permissions => exact fun _ _ => rfl
    case shape => exact fun _ _ => trivial
    case history => exact booted.history
    case file => rfl
    case proc => rfl

/-- The invariant between calls holds in every run. -/
theorem ready_of_reachable (consistent : Consistent k.sb disk) {state : Fs}
    (reached : (fileSystem k disk).Reachable state) :
    Ready k (initialPermissions k disk) state := by
  refine reached.invariant (Ready k (initialPermissions k disk)) ?_ ?_
  · rintro state ⟨booted, rfl⟩
    exact booted.ready consistent
  · rintro state ⟨p, call⟩ next _ ready ⟨result, run⟩
    exact runCall_ready call state ready result next run

/-- A lookup that succeeds gives a reference to the inode it finds. -/
theorem lookup_spec {frame : Frame} {held : List Hold} {p : Nat}
    (frees : frame.AllowsFree) (cwd : CwdHeld frame held p) (path : Path) :
    Triple (Inv k frame held) (lookup k p path)
      (Resolved k frame held) :=
  Triple.bind beginOp_spec (fun _ => namei_spec frees cwd path)

/-- The permissions that `getperm` reads in the inode it has found. -/
theorem getperm_found {frame : Frame} {held : List Hold} {ip inum : Nat}
    {loaded : Option (BitVec 16)} (frees : frame.AllowsFree) :
    Triple (Inv k frame (⟨ip, inum, loaded⟩ :: held))
      (do
        ilock k ip
        let permissions := (← inodeAt ip).copy.permissions
        iunlock ip
        iput k ip
        endOp
        return permissions.toInt)
      (fun result _ => result = (frame.permissions inum).toInt) := by
  refine Triple.bind ilock_exists (fun _ => ?_)
  apply Triple.exists_pre
  intro type
  refine Triple.bind (inodeAt_held List.mem_cons_self) (fun inode => ?_)
  apply Triple.and_pre
  rintro ⟨_, _, _, permissions⟩
  refine Triple.bind (iunlock_spec ip) (fun _ => ?_)
  refine Triple.bind (iput_spec ⟨ip, inum, some type⟩ frees) (fun _ => ?_)
  refine Triple.bind endOp_spec (fun _ => ?_)
  apply Triple.pure
  intro _ _
  rw [permissions]

/--
In every run from a consistent disk, `getperm` of a path returns the mode of
the last `chmod` of its inode since the inode was allocated, or the default
since its allocation, or what was on the disk at the start.
-/
theorem getperm_returns_last (k : Kernel) (disk : Disk)
    (consistent : Consistent k.sb disk) : GetpermLaw k disk := by
  intro state reached p path result next returned
  rcases ready_of_reachable consistent reached with
    ⟨frame, held, start, unshaped, tables, inv⟩
  have history : frame.history = state.history := by
    rcases inv with ⟨own, good⟩
    exact good.history.symm
  have frees := unshaped.allowsFree
  have cwd := tables.cwd_held p
  rcases bind_eq_ok.mp returned with ⟨_, begun, begin, rest⟩
  rcases bind_eq_ok.mp rest with ⟨answer, found, walked, rest⟩
  have looked : lookup k p path state = .ok (answer, found) :=
    bind_eq_ok.mpr ⟨_, _, begin, walked⟩
  refine ⟨answer, found, looked, ?_⟩
  have resolved := lookup_spec frees cwd path state inv answer found looked
  cases answer with
  | none =>
      rcases bind_eq_ok.mp rest with ⟨_, _, _, ⟨⟩⟩
      rfl
  | some ip =>
      rcases resolved with ⟨inum, loaded, inv⟩
      have number : (found.inode ip).inum = inum := by
        rcases inv with ⟨own, good⟩
        exact (good.table.holds _ List.mem_cons_self).1
      rw [getperm_found frees found inv result next rest]
      simp only [expectedPermissions, number, ← history, ← start]
      rfl

/-! ## Small disks -/

/-- A disk of eight blocks: inodes in block 2, the free map in block 3 and data
from block 4 on. -/
def smallSuperblock : Superblock where
  size := 8
  nblocks := 4
  ninodes := 3
  inodestart := 2
  bmapstart := 3
  rootExists := by decide
  inodesBelowMap := by decide
  mapBelowData := by decide
  sizeFits := by decide

/-- A kernel with small tables; `filealloc` takes the first free entry. -/
def smallKernel : Kernel where
  sb := smallSuperblock
  ninode := 3
  nofile := 2
  ndev := 1
  filealloc files := (List.range 2).find? fun f => decide ((files f).ref = 0)
  filealloc_free := by
    intro files entry found
    simpa using List.find?_some found

/-- The root directory: one entry, in block 4. -/
def smallRoot : Dinode :=
  ⟨tDir, 0, 0, 1, 16, Function.update (fun _ => 0) 0 4, 448⟩

/-- A file whose content is in `block`. -/
def smallFile (size block : BitVec 32) (permissions : BitVec 16) : Dinode :=
  ⟨tFile, 0, 0, 1, size, Function.update (fun _ => 0) 0 block, permissions⟩

/-- The disk whose root directory has the entry `f` for `file`. -/
def smallDisk (file : Dinode) : Disk := fun block =>
  if block = 2 then writeDinode (writeDinode zeros 1 smallRoot) 2 file
  else if block = 3 then store zeros 0 1 63
  else if block = 4 then direntBytes [102] 2
  else zeros

/-- The state at boot with a small disk. -/
def smallBoot (file : Dinode) : Fs where
  disk := smallDisk file
  inode _ := ⟨0, 0, false, false, smallRoot⟩
  file _ := ⟨.none, 0, false, false, 0, 0, 0⟩
  proc _ := ⟨none, fun _ => none⟩
  outstanding := 0
  history := []

theorem smallBoot_booted (file : Dinode) : Booted (smallBoot file) :=
  ⟨fun _ => rfl, fun _ => ⟨rfl, rfl⟩, fun _ => rfl, fun _ _ => rfl, rfl⟩

/-- The owners of the blocks of a small disk. -/
def smallOwners : Owners := fun block =>
  if block = 4 then some (1, .addr 0)
  else if block = 5 then some (2, .addr 0)
  else none

theorem smallOwners_eq_some {block : Nat} {owner : Nat × Place}
    (owned : smallOwners block = some owner) :
    block = 4 ∧ owner = (1, .addr 0) ∨ block = 5 ∧ owner = (2, .addr 0) := by
  unfold smallOwners at owned
  split at owned
  · next here => exact .inl ⟨here, (Option.some.inj owned).symm⟩
  · split at owned
    · next here => exact .inr ⟨here, (Option.some.inj owned).symm⟩
    · cases owned

theorem smallDisk_consistent :
    Consistent smallSuperblock (smallDisk (smallFile 5 5 0)) := by
  refine ⟨smallOwners, ?_⟩
  constructor
  case metadata => decide +kernel
  case inData =>
    intro block owner owned
    rcases smallOwners_eq_some owned with ⟨rfl, rfl⟩ | ⟨rfl, rfl⟩
    · exact ⟨by decide, by decide⟩
    · exact ⟨by decide, by decide⟩
  case marked =>
    intro block owner owned
    rcases smallOwners_eq_some owned with ⟨rfl, rfl⟩ | ⟨rfl, rfl⟩
    · decide +kernel
    · decide +kernel
  case live =>
    intro block inum place owned
    rcases smallOwners_eq_some owned with ⟨_, ⟨⟩⟩ | ⟨_, ⟨⟩⟩
    · decide +kernel
    · decide +kernel
  case addrs =>
    have checked : ∀ inum < smallSuperblock.ninodes,
        (smallSuperblock.dinode (smallDisk (smallFile 5 5 0)) inum).type ≠ 0 →
          ∀ place, (smallSuperblock.dinode (smallDisk (smallFile 5 5 0))
              inum).addrs place ≠ 0 →
            smallOwners ((smallSuperblock.dinode (smallDisk (smallFile 5 5 0))
              inum).addrs place).toNat = some (inum, .addr place) := by
      decide +kernel
    exact fun inum exists_ _ => checked inum exists_
  case entries =>
    intro block inum owned
    have distinct : Place.indirect ≠ Place.addr 0 := by decide
    rcases smallOwners_eq_some owned with ⟨_, equal⟩ | ⟨_, equal⟩
    · exact absurd (congrArg Prod.snd equal) distinct
    · exact absurd (congrArg Prod.snd equal) distinct
  case dirents =>
    intro block inum place owned _
    rcases smallOwners_eq_some owned with ⟨rfl, ⟨⟩⟩ | ⟨rfl, ⟨⟩⟩
    · intro _
      unfold DirBlock
      decide +kernel
    · intro directory
      exact absurd directory (by decide +kernel)

/-- One call, if it returns. -/
def stepCall (k : Kernel) (state : Fs) (label : Nat × Call) : Option Fs :=
  match runCall k label.1 label.2 state with
  | .ok (_, next) => some next
  | .error _ => none

theorem stepCall_sound (k : Kernel) (disk : Disk) (state : Fs)
    (label : Nat × Call) (next : Fs)
    (taken : stepCall k state label = some next) :
    (fileSystem k disk).step state label next := by
  unfold stepCall at taken
  split at taken
  · next run =>
    cases taken
    exact ⟨_, run⟩
  · cases taken

/-- The state after some calls from boot; the boot state if one of them does
not return. -/
def smallRun (file : Dinode) (calls : List (Nat × Call)) : Fs :=
  (calls.foldlM (stepCall smallKernel) (smallBoot file)).getD (smallBoot file)

theorem smallRun_reachable (file : Dinode) (calls : List (Nat × Call)) :
    (fileSystem smallKernel (smallDisk file)).Reachable
      (smallRun file calls) := by
  have boot : (fileSystem smallKernel (smallDisk file)).Reachable
      (smallBoot file) :=
    .start ⟨smallBoot_booted file, rfl⟩
  unfold smallRun
  cases run : calls.foldlM (stepCall smallKernel) (smallBoot file) with
  | none => exact boot
  | some last =>
      exact System.Reachable.of_run (stepCall_sound smallKernel _) boot run

/-- The law on a small disk. -/
theorem getperm_returns_last_smallDisk :
    Consistent smallSuperblock (smallDisk (smallFile 5 5 0)) ∧
      GetpermLaw smallKernel (smallDisk (smallFile 5 5 0)) :=
  ⟨smallDisk_consistent,
    getperm_returns_last smallKernel _ smallDisk_consistent⟩

/-- The file owns the block of inodes.  Its content is overwritten where the
permissions of the root are. -/
def sharedRun : Fs :=
  smallRun (smallFile 1024 2 384)
    [(0, .open (some [slash, 102]) oRdwr),
      (0, .write 0 ⟨[⟨192, 2, fun _ => true, zeros, 194⟩], 2⟩)]

/-- The result that a call returns, if it returns. -/
def returnedValue : Except Stop (Int × Fs) → Option Int
  | .ok (result, _) => some result
  | .error _ => none

/-- On a disk where a file owns a block of inodes, a write to the file changes
what `getperm` returns for the root. -/
theorem getperm_fails_sharedBlock :
    ¬ GetpermLaw smallKernel (smallDisk (smallFile 1024 2 384)) := by
  intro law
  have returned :
      returnedValue (sysGetperm smallKernel 0 (some [slash]) sharedRun) =
        some 0 := by
    decide +kernel
  cases run : sysGetperm smallKernel 0 (some [slash]) sharedRun with
  | error stop =>
      rw [run] at returned
      cases returned
  | ok pair =>
      rcases pair with ⟨result, next⟩
      rw [run] at returned
      rcases law sharedRun (smallRun_reachable _ _) 0 [slash] result next run
        with ⟨answer, found, looked, equal⟩
      have expected :
          (match lookup smallKernel 0 [slash] sharedRun with
          | .ok (answer, found) =>
              expectedPermissions smallKernel
                (smallDisk (smallFile 1024 2 384)) sharedRun.history found
                answer
          | .error _ => 0) = 448 := by
        decide +kernel
      simp only [looked] at expected
      simp only [returnedValue, Option.some.injEq] at returned
      rw [returned, expected] at equal
      cases equal

end OSCourse.FileSystem
