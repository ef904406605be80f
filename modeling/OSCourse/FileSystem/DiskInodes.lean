import OSCourse.FileSystem.References

/-!
# Inodes on disk and in memory

`iupdate` and `ilock` copy the same fields of an inode to the disk and back, at
the place that `IBLOCK` and `inum % IPB` give.  What `iupdate` wrote is what a
later `ilock` loads.  `iupdate` and `ialloc` touch the 128 bytes of one disk
inode only.
-/

namespace OSCourse.FileSystem

open OSCourse.Library.ByteBlock
open OSCourse.Library.Hoare

variable {k : Kernel}

/-! ## The bytes of one disk inode -/

/-- Byte `offset` of the disk inode `inum`. -/
def Superblock.dinodeByte (sb : Superblock) (disk : Disk)
    (inum offset : Nat) : Byte :=
  disk (sb.iblock inum) (128 * (inum % ipb) + offset)

/-- Nothing changes outside the 128 bytes of the disk inode `inum`. -/
structure OnlyDinode (sb : Superblock) (inum : Nat) (before after : Disk) :
    Prop where
  dinodes : ∀ other, other ≠ inum → ∀ offset < 128,
    sb.dinodeByte after other offset = sb.dinodeByte before other offset
  blocks : ∀ block, block ≠ sb.iblock inum → after block = before block

/-- Two inodes in one block do not overlap. -/
theorem OnlyDinode.of_update {sb : Superblock} {inum : Nat} {disk : Disk}
    {bytes : Bytes}
    (outside : ∀ place,
      place < 128 * (inum % ipb) ∨ 128 * (inum % ipb + 1) ≤ place →
        bytes place = disk (sb.iblock inum) place) :
    OnlyDinode sb inum disk (Function.update disk (sb.iblock inum) bytes) := by
  constructor
  case dinodes =>
    intro other different offset bound
    simp only [Superblock.dinodeByte, Function.update_apply]
    split
    · next block =>
      rw [block]
      apply outside
      simp only [Superblock.iblock, ipb] at block ⊢
      omega
    · rfl
  case blocks =>
    intro block apart
    exact Function.update_of_ne apart _ _

/-- Every byte that `ialloc` stores is zero, those of the type and of the
permissions apart. -/
theorem formatDinode_zero (bytes : Bytes) (index : Nat) (type : BitVec 16)
    {offset : Nat} (inside : offset < 128) (notType : 2 ≤ offset)
    (notPermissions : offset < 64 ∨ 66 ≤ offset) :
    formatDinode bytes index type (128 * index + offset) = 0 := by
  simp only [formatDinode, store, overwrite]
  rw [if_neg (by omega), if_neg (by omega), if_pos (by omega)]
  rfl

/-! ## Loading -/

/-- An entry of the inode table once its fields are copied from disk. -/
def Inode.loaded (dinode : Dinode) (inode : Inode) : Inode :=
  { inode with locked := true, copy := dinode, valid := true }

/-- What is left of `ilock` after the copy: an inode without type is refused. -/
def checkType (type : BitVec 16) : FsM Unit :=
  if type = 0 then throw (.panic "ilock: no type") else return ()

/-- `ilock` of an entry that was not read yet. -/
theorem ilock_reload_run (k : Kernel) {ip : Nat} {state : Fs}
    (used : 0 < (state.inode ip).ref)
    (unlocked : (state.inode ip).locked = false)
    (invalid : (state.inode ip).valid = false) :
    ilock k ip state =
      checkType (k.sb.dinode state.disk (state.inode ip).inum).type
        (state.withInode ip
          (.loaded (k.sb.dinode state.disk (state.inode ip).inum))) := by
  have counted : ¬ (state.inode ip).ref < 1 := by omega
  have taken : acquiresleep ip state =
      .ok ((), state.withInode ip
        fun inode => { inode with locked := true }) := by
    rw [acquiresleep_run, unlocked]
    rfl
  show (if (state.inode ip).ref < 1 then _ else _ : FsM Unit) state = _
  rw [if_neg counted, bind_of_ok taken]
  set locked := state.withInode ip fun inode => { inode with locked := true }
    with lockedIs
  have entry : locked.inode ip = { state.inode ip with locked := true } :=
    Function.update_self ..
  have loads : locked.withInode ip (fun inode => { inode with
      copy := k.sb.dinode state.disk (state.inode ip).inum
      valid := true }) =
      state.withInode ip
        (.loaded (k.sb.dinode state.disk (state.inode ip).inum)) := by
    simp only [Fs.withInode, entry, Inode.loaded]
    rw [lockedIs]
    simp only [Fs.withInode, Function.update_idem]
  show (if (locked.inode ip).valid then _ else _ : FsM Unit) locked = _
  rw [entry, invalid, if_neg Bool.false_ne_true, ← loads]
  rfl

/-! ## What was written is loaded again -/

/-- `iupdate` stores the fields of the entry and nothing else. -/
theorem iupdate_stores (k : Kernel) {ip : Nat} {before after : Fs}
    (updated : iupdate k ip before = .ok ((), after)) :
    after.inode = before.inode ∧
      OnlyDinode k.sb (before.inode ip).inum before.disk after.disk ∧
      k.sb.dinode after.disk (before.inode ip).inum =
        (before.inode ip).copy := by
  rw [iupdate_run] at updated
  cases updated
  refine ⟨rfl, ?_, ?_⟩
  · exact .of_update fun _ => writeDinode_outside _ _
  · simp only [Fs.withBlock, k.sb.dinode_writeDinode, if_true]

/-- The entry that `iget` returns is the one of the inode asked for. -/
theorem iget_inum {inum ip : Nat} {state after : Fs}
    (run : iget k inum state = .ok (ip, after)) :
    (after.inode ip).inum = inum := by
  rw [iget_run] at run
  split at run
  · next found =>
    cases run
    have test := List.find?_some found
    simp only [Bool.and_eq_true, decide_eq_true_eq] at test
    simp only [Fs.withInode, Function.update_self, test.2]
  · split at run
    · cases run
    · cases run
      simp only [Fs.withInode, Function.update_self]

/-- What `ialloc` leaves on the disk. -/
structure Formatted (sb : Superblock) (type : BitVec 16) (inum : Nat)
    (before after : Disk) : Prop where
  only : OnlyDinode sb inum before after
  decoded : sb.dinode after inum = freshDinode type
  zeros : ∀ offset < 128, 2 ≤ offset → offset < 64 ∨ 66 ≤ offset →
    sb.dinodeByte after inum offset = 0

/-- `ialloc` finds no free disk inode, or formats the one it returns. -/
def FormatsReturned (sb : Superblock) (type : BitVec 16) (before : Disk) :
    Option Nat → Fs → Prop
  | none, after => after.disk = before
  | some ip, after =>
      Formatted sb type (after.inode ip).inum before after.disk

theorem ialloc_formats (k : Kernel) (type : BitVec 16)
    {before after : Fs} {result : Option Nat}
    (allocated : ialloc k type before = .ok (result, after)) :
    FormatsReturned k.sb type before.disk result after := by
  rw [ialloc_run] at allocated
  split at allocated
  · cases allocated
    rfl
  · next inum found =>
    rcases bind_eq_ok.mp allocated with ⟨ip, between, taken, ⟨⟩⟩
    have number := iget_inum taken
    have disk := iget_disk taken
    simp only [Fs.record, Fs.withBlock] at disk
    simp only [FormatsReturned, number, disk]
    constructor
    case only => exact .of_update fun _ => formatDinode_outside _ _
    case decoded => rw [k.sb.dinode_formatDinode, if_pos rfl]
    case zeros =>
      intro offset inside notType notPermissions
      simp only [Superblock.dinodeByte, Function.update_self]
      exact formatDinode_zero _ _ _ inside notType notPermissions

/--
For every disk, inode number and fields of an entry: what `iupdate` stores is
loaded again by `ilock`, whose last check refuses only an inode without type;
`iupdate` and `ialloc` change no other disk inode and no other block; and what
`ialloc` returns has the type asked for, the permissions `0700` and zeros
elsewhere.
-/
theorem dinode_roundTrip (k : Kernel) (state : Fs) :
    (∀ ip, ∃ next, iupdate k ip state = .ok ((), next) ∧
      OnlyDinode k.sb (state.inode ip).inum state.disk next.disk ∧
      ∀ jp later, later.disk = next.disk →
        (later.inode jp).inum = (state.inode ip).inum →
        0 < (later.inode jp).ref →
        (later.inode jp).locked = false →
        (later.inode jp).valid = false →
          ilock k jp later =
            checkType (state.inode ip).copy.type
              (later.withInode jp (.loaded (state.inode ip).copy))) ∧
    (∀ type result next, ialloc k type state = .ok (result, next) →
      FormatsReturned k.sb type state.disk result next) := by
  constructor
  · intro ip
    have updated := iupdate_run k ip state
    rcases iupdate_stores k updated with ⟨-, only, stored⟩
    refine ⟨_, updated, only, ?_⟩
    intro jp later disk number used unlocked invalid
    rw [ilock_reload_run k used unlocked invalid, disk, number, stored]
  · intro type result next allocated
    exact ialloc_formats k type allocated

end OSCourse.FileSystem
