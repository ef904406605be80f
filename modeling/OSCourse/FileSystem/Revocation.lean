import OSCourse.FileSystem.Exec

/-!
# Revoked execute permission

A file whose last `chmod` cleared the execute bit of the owner is refused by
`exec`, provided the mode has another permission bit: a word without any bit
passes the check of `exec`, which takes it for a file made by `mkfs`.
-/

namespace OSCourse.FileSystem

open OSCourse.Library.ByteBlock
open OSCourse.Library.Hoare
open OSCourse.Library.TransitionSystem

/-! ## Runs -/

/-- What a process does: a call on files, or `exec`. -/
inductive Action where
  | call (call : Call)
  | exec (path : Path) (argv : List (List Byte))

variable {vm : Vm} {k : Kernel} {disk : Disk}

/-- The action of process `p`. -/
def runAction (k : Kernel) (p : Nat) : Action → ExecM vm Int
  | .call call => onFs (runCall k p call)
  | .exec path argv => exec k p path argv

/-- The machine started on the disk `disk`; each action is one step. -/
def machineSystem (vm : Vm) (k : Kernel) (disk : Disk) :
    System (Machine vm) (Nat × Action) where
  start machine := Booted machine.fs ∧ machine.fs.disk = disk
  step machine label next :=
    ∃ result, runAction k label.1 label.2 machine = .ok (result, next)

/-! ## The law -/

/-- The inode whose permissions an event changes. -/
def Event.inum : Event → Nat
  | .allocated inum => inum
  | .chmod inum _ => inum

/-- The last change of the permissions of an inode. -/
def lastChange (history : List Event) (inum : Nat) : Option Event :=
  history.find? fun event => decide (event.inum = inum)

/-- The path resolves to the inode `ip`, and the last change of its permissions
was a `chmod` with `mode`. -/
structure LastChmod (k : Kernel) (machine : Machine vm) (p : Nat) (path : Path)
    (mode : BitVec 32) (ip : Nat) (found : Fs) : Prop where
  resolved : lookup k p path machine.fs = .ok (some ip, found)
  changed : lastChange machine.fs.history (found.inode ip).inum =
    some (.chmod (found.inode ip).inum mode)

/-- `exec` returns -1 and changes neither an image nor the memory; or the kernel
stops while it locks and releases the inode. -/
def Refuses (k : Kernel) (machine : Machine vm) (p : Nat) (path : Path)
    (argv : List (List Byte)) (ip : Nat) (found : Fs) : Prop :=
  (∃ fs, exec k p path argv machine = .ok (-1, { machine with fs := fs })) ∨
    ∃ stop, exec k p path argv machine = .error stop ∧
      (do ilock k ip; iunlockput k ip) found = .error stop

/-- In every run, a path whose last `chmod` was with `mode` is refused. -/
def RevocationLaw (vm : Vm) (k : Kernel) (disk : Disk) (mode : BitVec 32) :
    Prop :=
  ∀ machine, (machineSystem vm k disk).Reachable machine →
    ∀ p path ip found, LastChmod k machine p path mode ip found →
      ∀ argv, Refuses k machine p path argv ip found

/-! ## The invariant in every run -/

theorem runAction_ready (p : Nat) (action : Action)
    {initial : Nat → BitVec 16} :
    Triple (fun machine : Machine vm => Ready k initial machine.fs)
      (runAction k p action)
      (fun _ machine => Ready k initial machine.fs) := by
  cases action with
  | call call =>
      refine onFs_spec ?_
      exact runCall_ready call
  | exec path argv =>
      rintro machine ⟨frame, held, start, unshaped, tables, inv⟩ result next
        returned
      refine ⟨frame, held, start, unshaped, tables, ?_⟩
      exact exec_spec unshaped.allowsFree (tables.cwd_held p) path argv machine
        inv result next returned

/-- The invariant between calls holds in every run of the machine. -/
theorem machine_ready (consistent : Consistent k.sb disk)
    {machine : Machine vm}
    (reached : (machineSystem vm k disk).Reachable machine) :
    Ready k (initialPermissions k disk) machine.fs := by
  refine reached.invariant
    (fun machine => Ready k (initialPermissions k disk) machine.fs) ?_ ?_
  · rintro machine ⟨booted, rfl⟩
    exact booted.ready consistent
  · rintro machine ⟨p, action⟩ next _ ready ⟨result, run⟩
    exact runAction_ready p action machine ready result next run

/-! ## The refusal -/

theorem lastPermissions_of_lastChange {initial : Nat → BitVec 16}
    {history : List Event} {inum : Nat} {mode : BitVec 32}
    (changed : lastChange history inum = some (.chmod inum mode)) :
    lastPermissions initial history inum = maskMode mode := by
  induction history with
  | nil => cases changed
  | cons event earlier induction =>
      cases event with
      | allocated other =>
          by_cases same : other = inum
          · simp [lastChange, Event.inum, same] at changed
          · simp only [lastPermissions, same, if_false]
            apply induction
            simpa [lastChange, Event.inum, same] using changed
      | chmod other last =>
          by_cases same : other = inum
          · have equal : last = mode := by
              simpa [lastChange, Event.inum, same] using changed
            simp [lastPermissions, same, equal]
          · simp only [lastPermissions, same, if_false]
            apply induction
            simpa [lastChange, Event.inum, same] using changed

theorem onFs_of_ok {α : Type} {program : FsM α} (machine : Machine vm)
    {result : α} {after : Fs}
    (returned : program machine.fs = .ok (result, after)) :
    onFs program machine = .ok (result, { machine with fs := after }) :=
  onPart_eq_ok.mpr ⟨after, returned, rfl⟩

/-- `exec` goes on where the lookup ends. -/
theorem exec_of_lookup {machine : Machine vm} {p : Nat} {path : Path}
    {answer : Option Nat} {found : Fs}
    (resolved : lookup k p path machine.fs = .ok (answer, found))
    (argv : List (List Byte)) :
    exec k p path argv machine =
      execFound k p path argv answer { machine with fs := found } := by
  rcases bind_eq_ok.mp resolved with ⟨_, begun, begin, walked⟩
  unfold exec
  rw [bind_of_ok (onFs_of_ok machine begin)]
  exact bind_of_ok (onFs_of_ok { machine with fs := begun } walked)

/-- With the inode locked and execution denied, `exec` releases the inode and
returns -1. -/
theorem execLocked_denied (machine : Machine vm) (p : Nat) (path : Path)
    (argv : List (List Byte)) (ip : Nat)
    (denied : (machine.fs.inode ip).copy.permissions ≠ 0 ∧
      ownerExec (machine.fs.inode ip).copy.permissions = false) :
    execLocked k p path argv ip machine =
      (do leave k ip; return -1 : ExecM vm Int) machine := by
  unfold execLocked
  have read : onFs (inodeAt ip) machine =
      .ok (machine.fs.inode ip, machine) := rfl
  rw [bind_of_ok read]
  exact congrFun (if_pos denied) machine

/-- Leaving returns where releasing the inode does. -/
theorem leave_of_released (machine : Machine vm) {ip : Nat} {released : Fs}
    (release : iunlockput k ip machine.fs = .ok ((), released)) :
    ∃ fs, leave k ip machine = .ok ((), { machine with fs := fs }) := by
  unfold leave
  rw [bind_of_ok (onFs_of_ok machine release)]
  exact ⟨_, rfl⟩

/-- The refusal, for an inode whose permissions do not allow execution. -/
theorem execFound_refuses (machine : Machine vm) (p : Nat) (path : Path)
    (argv : List (List Byte)) (ip : Nat)
    (denied : ∀ locked, ilock k ip machine.fs = .ok ((), locked) →
      (locked.inode ip).copy.permissions ≠ 0 ∧
        ownerExec (locked.inode ip).copy.permissions = false) :
    (∃ fs, execFound k p path argv (some ip) machine =
        .ok (-1, { machine with fs := fs })) ∨
      ∃ stop, execFound k p path argv (some ip) machine = .error stop ∧
        (do ilock k ip; iunlockput k ip) machine.fs = .error stop := by
  cases lock : ilock k ip machine.fs with
  | error stop =>
      refine .inr ⟨stop, ?_, bind_of_error lock⟩
      exact bind_of_error (onPart_eq_error.mpr lock)
  | ok pair =>
      rcases pair with ⟨⟨⟩, locked⟩
      have entered : execFound k p path argv (some ip) machine =
          (do leave k ip; return -1 : ExecM vm Int)
            { machine with fs := locked } := by
        refine (bind_of_ok (onFs_of_ok machine lock)).trans ?_
        exact execLocked_denied _ p path argv ip (denied locked lock)
      rw [entered]
      cases release : iunlockput k ip locked with
      | error stop =>
          refine .inr ⟨stop, ?_, (bind_of_ok lock).trans release⟩
          apply bind_of_error
          exact bind_of_error (onPart_eq_error.mpr release)
      | ok pair =>
          rcases pair with ⟨⟨⟩, released⟩
          rcases leave_of_released { machine with fs := locked } release with
            ⟨fs, left⟩
          exact .inl ⟨fs, bind_of_ok left⟩

/-- The permissions that `exec` reads are those of the last `chmod`. -/
theorem permissions_of_lastChmod (consistent : Consistent k.sb disk)
    {machine : Machine vm}
    (reached : (machineSystem vm k disk).Reachable machine) {p ip : Nat}
    {path : Path} {mode : BitVec 32} {found locked : Fs}
    (last : LastChmod k machine p path mode ip found)
    (lock : ilock k ip found = .ok ((), locked)) :
    (locked.inode ip).copy.permissions = maskMode mode := by
  rcases machine_ready consistent reached with
    ⟨frame, held, start, unshaped, tables, inv⟩
  have history : frame.history = machine.fs.history := by
    rcases inv with ⟨own, good⟩
    exact good.history.symm
  have resolved := lookup_spec unshaped.allowsFree (tables.cwd_held p) path
    machine.fs inv (some ip) found last.resolved
  rcases resolved with ⟨inum, loaded, inv⟩
  have number : (found.inode ip).inum = inum := by
    rcases inv with ⟨own, good⟩
    exact (good.table.holds _ List.mem_cons_self).1
  rcases ilock_exists found inv () locked lock with ⟨type, inv⟩
  rcases inodeAt_held List.mem_cons_self locked inv _ _ rfl with
    ⟨_, _, _, _, permissions⟩
  rw [permissions]
  have changed := last.changed
  rw [number, ← history] at changed
  exact lastPermissions_of_lastChange changed

theorem ownerExec_maskMode (mode : BitVec 32) :
    ownerExec (maskMode mode) = mode.getLsbD 6 := by
  simp [ownerExec, maskMode]

theorem maskMode_eq_zero (mode : BitVec 32) :
    maskMode mode = 0 ↔ mode &&& 511 = 0 := by
  have small : (mode &&& 511).toNat ≤ 511 := by
    rw [BitVec.toNat_and]
    exact Nat.and_le_right
  unfold maskMode
  bv_omega

/--
In every run from a consistent disk, a path whose last `chmod` cleared the
execute bit of the owner and left another permission bit set is refused by
`exec`.
-/
theorem exec_refuses_revoked (vm : Vm) (k : Kernel) (disk : Disk)
    (consistent : Consistent k.sb disk) (mode : BitVec 32)
    (cleared : mode.getLsbD 6 = false) (nonzero : mode &&& 511 ≠ 0) :
    RevocationLaw vm k disk mode := by
  intro machine reached p path ip found last argv
  unfold Refuses
  rw [exec_of_lookup last.resolved]
  refine execFound_refuses { machine with fs := found } p path argv ip ?_
  intro locked lock
  rw [permissions_of_lastChmod consistent reached last lock]
  constructor
  · intro zero
    exact nonzero ((maskMode_eq_zero mode).mp zero)
  · rw [ownerExec_maskMode]
    exact cleared

/-! ## A small machine -/

/-- Memory that never runs out; a page is at the same physical address above
`KERNBASE`.  The memory is the list of what was copied to it. -/
def smallVm : Vm where
  Memory := List (Word × List Byte)
  Pagetable := Unit
  maxarg := 32
  procPagetable _ memory := (some (), memory)
  procFreepagetable _ _ memory := memory
  uvmalloc _ oldsz newsz _ memory :=
    (if newsz < oldsz then oldsz else newsz, memory)
  uvmclear _ _ memory := memory
  walkaddr _ va _ := va + 0x80000000
  kernelCopy pa bytes memory := (pa, bytes) :: memory
  copyout _ va bytes memory := (true, (va, bytes) :: memory)

/-- The machine at boot with a small disk. -/
def smallMachine (file : Dinode) : Machine smallVm where
  fs := smallBoot file
  memory := []
  image _ := ⟨(), 0, ⟨0, 0, 0⟩, []⟩

/-- One action, if it returns. -/
def stepAction (k : Kernel) (machine : Machine vm) (label : Nat × Action) :
    Option (Machine vm) :=
  match runAction k label.1 label.2 machine with
  | .ok (_, next) => some next
  | .error _ => none

theorem stepAction_sound (k : Kernel) (disk : Disk) (machine : Machine vm)
    (label : Nat × Action) (next : Machine vm)
    (taken : stepAction k machine label = some next) :
    (machineSystem vm k disk).step machine label next := by
  unfold stepAction at taken
  split at taken
  · next run =>
    cases taken
    exact ⟨_, run⟩
  · cases taken

/-- The machine after some actions of process 0; the machine at boot if one of
them does not return. -/
def smallActions (file : Dinode) (actions : List Action) : Machine smallVm :=
  ((actions.map fun action => (0, action)).foldlM (stepAction smallKernel)
    (smallMachine file)).getD (smallMachine file)

theorem smallActions_reachable (file : Dinode) (actions : List Action) :
    (machineSystem smallVm smallKernel (smallDisk file)).Reachable
      (smallActions file actions) := by
  have boot : (machineSystem smallVm smallKernel (smallDisk file)).Reachable
      (smallMachine file) :=
    .start ⟨smallBoot_booted file, rfl⟩
  unfold smallActions
  cases run : (actions.map fun action => (0, action)).foldlM
      (stepAction smallKernel) (smallMachine file) with
  | none => exact boot
  | some last =>
      exact System.Reachable.of_run (stepAction_sound smallKernel _) boot run

/-- The path `/f`. -/
def smallPath : Path := [slash, 102]

/-- The header of a program without segments, written to the file. -/
def writeHeader : List Action :=
  [.call (.chmod (some smallPath) 0o600),
    .call (.open (some smallPath) oRdwr),
    .call (.write 0
      ⟨[⟨0, 64, fun _ => true, store zeros 0 4 elfMagic.toNat, 64⟩], 64⟩)]

/-- The machine after the file has been made a program and its permissions set
to `mode`. -/
def programMachine (mode : BitVec 32) : Machine smallVm :=
  smallActions (smallFile 5 5 0)
    (writeHeader ++ [.call (.chmod (some smallPath) mode)])

/-- What `exec` returns, if it returns. -/
def execResult : Except Stop (Int × Machine vm) → Option Int
  | .ok (result, _) => some result
  | .error _ => none

/-- With the mode 0600 the program is refused. -/
theorem exec_refuses_revoked_program :
    RevocationLaw smallVm smallKernel (smallDisk (smallFile 5 5 0)) 0o600 ∧
      execResult (exec smallKernel 0 smallPath [[102]]
        (programMachine 0o600)) = some (-1) :=
  ⟨exec_refuses_revoked smallVm smallKernel _ smallDisk_consistent 0o600
    (by decide) (by decide), by decide +kernel⟩

/-- The path resolves, and the last change of its inode was a `chmod` with
`mode`. -/
def chmodFound (machine : Machine smallVm) (mode : BitVec 32) : Bool :=
  match lookup smallKernel 0 smallPath machine.fs with
  | .ok (some ip, found) =>
      decide (lastChange machine.fs.history (found.inode ip).inum =
        some (.chmod (found.inode ip).inum mode))
  | _ => false

theorem lastChmod_of_found {machine : Machine smallVm} {mode : BitVec 32}
    (checked : chmodFound machine mode = true) :
    ∃ ip found, LastChmod smallKernel machine 0 smallPath mode ip found := by
  unfold chmodFound at checked
  split at checked
  · next ip found resolved =>
    exact ⟨ip, found, resolved, of_decide_eq_true checked⟩
  · cases checked

/-- With the mode 0 the program runs. -/
theorem exec_runs_zero_mode :
    ¬ RevocationLaw smallVm smallKernel (smallDisk (smallFile 5 5 0)) 0 := by
  intro law
  have run : chmodFound (programMachine 0) 0 = true ∧
      execResult (exec smallKernel 0 smallPath [[102]]
        (programMachine 0)) = some 1 := by
    decide +kernel
  rcases run with ⟨checked, returned⟩
  rcases lastChmod_of_found checked with ⟨ip, found, last⟩
  rcases law (programMachine 0) (smallActions_reachable _ _) 0 smallPath ip
    found last [[102]] with ⟨fs, refused⟩ | ⟨stop, stopped, _⟩
  · rw [refused] at returned
    cases returned
  · rw [stopped] at returned
    cases returned

end OSCourse.FileSystem
