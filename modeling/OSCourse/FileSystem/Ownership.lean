import OSCourse.FileSystem.Fs

/-!
# Block ownership

A consistent disk gives every block that an inode refers to one owner: the
inode and the place in it.  Owned blocks lie in the data area and are marked in
the free map, and the entries in the blocks of a directory name existing
inodes.  So no write to a file reaches an inode, the free map, an indirect
block or a directory.

The lemmas say which changes of a disk and of the owners keep this.
-/

namespace OSCourse.FileSystem

open OSCourse.Library.ByteBlock

/-- Where an inode refers to a block: in `addrs`, or in its indirect block. -/
inductive Place where
  | addr (place : Fin (ndirect + 1))
  | entry (place : Nat)
deriving DecidableEq

/-- The place of the indirect block. -/
def Place.indirect : Place := .addr (Fin.last ndirect)

/-- The inode and the place that refer to a block. -/
abbrev Owners := Nat → Option (Nat × Place)

/-- The owners without the blocks of one inode. -/
def Owners.release (own : Owners) (inum : Nat) : Owners := fun block =>
  (own block).filter fun owner => owner.1 ≠ inum

theorem Owners.release_eq_some {own : Owners} {inum block : Nat}
    {owner : Nat × Place} :
    own.release inum block = some owner ↔
      own block = some owner ∧ owner.1 ≠ inum := by
  simp [Owners.release, Option.filter_eq_some_iff]

/-- The blocks given up have no owner. -/
theorem Owners.release_of_owned {own : Owners} {inum block : Nat}
    {place : Place} (owned : own block = some (inum, place)) :
    own.release inum block = none := by
  simp [Owners.release, owned]

/-- The inode number of every entry in the block exists. -/
def DirBlock (sb : Superblock) (bytes : Bytes) : Prop :=
  ∀ index < 64, load bytes (16 * index) 2 < sb.ninodes

theorem dirBlock_zeros (sb : Superblock) : DirBlock sb zeros := by
  intro index _
  have root := sb.rootExists
  simp only [load_zeros]
  omega

/--
A consistent disk.  The inode `skip`, if there is one, is being truncated: its
`addrs` are not looked at.
-/
structure Image (sb : Superblock) (own : Owners) (skip : Option Nat)
    (disk : Disk) : Prop where
  metadata : ∀ block < sb.dataStart, sb.marked disk block = true
  inData : ∀ block owner, own block = some owner → sb.InData block
  marked : ∀ block owner, own block = some owner → sb.marked disk block = true
  live : ∀ block inum place, own block = some (inum, place) →
    inum < sb.ninodes ∧ (sb.dinode disk inum).type ≠ 0
  addrs : ∀ inum < sb.ninodes, skip ≠ some inum →
    (sb.dinode disk inum).type ≠ 0 →
      ∀ place, (sb.dinode disk inum).addrs place ≠ 0 →
        own ((sb.dinode disk inum).addrs place).toNat =
          some (inum, .addr place)
  entries : ∀ block inum, own block = some (inum, .indirect) →
    ∀ place < nindirect, indirectEntry (disk block) place ≠ 0 →
      own (indirectEntry (disk block) place).toNat =
        some (inum, .entry place)
  dirents : ∀ block inum place, own block = some (inum, place) →
    place ≠ .indirect → (sb.dinode disk inum).type = tDir →
      DirBlock sb (disk block)

/-- A block just allocated: marked, cleared and without owner. -/
structure Fresh (sb : Superblock) (own : Owners) (disk : Disk)
    (block : Nat) : Prop where
  inData : sb.InData block
  unowned : own block = none
  marked : sb.marked disk block = true
  cleared : disk block = zeros

namespace Image

variable {sb : Superblock} {own : Owners} {skip : Option Nat} {disk : Disk}

/-! ## Changes of the free map -/

/-- The block that `balloc` finds lies in the data area and has no owner. -/
theorem free_block (image : Image sb own skip disk) {block : Nat}
    (inside : block < sb.size) (free : sb.marked disk block = false) :
    sb.InData block ∧ own block = none := by
  constructor
  · refine ⟨?_, inside⟩
    by_contra below
    have used := image.metadata block (by omega)
    simp [free] at used
  · cases owner : own block with
    | none => rfl
    | some owner' =>
        have used := image.marked block owner' owner
        simp [free] at used

/-- A change of the free map that keeps the marks that count. -/
theorem map_block (image : Image sb own skip disk) {block : Nat}
    {bytes : Bytes} (inside : block < sb.size)
    (marks : ∀ other < sb.size,
      (other < sb.dataStart ∨ ∃ owner, own other = some owner) →
        sb.marked disk other = true →
          sb.marked (Function.update disk (sb.bblock block) bytes) other =
            true) :
    Image sb own skip (Function.update disk (sb.bblock block) bytes) := by
  have above := sb.bmapstart_le_bblock block
  have below := sb.bblock_lt inside
  have dinodes : ∀ inum < sb.ninodes,
      sb.dinode (Function.update disk (sb.bblock block) bytes) inum =
        sb.dinode disk inum :=
    fun inum exists_ => sb.dinode_update_of_le bytes exists_ above
  have data : ∀ other, sb.dataStart ≤ other →
      Function.update disk (sb.bblock block) bytes other = disk other :=
    fun other data => Function.update_of_ne (by omega) _ _
  constructor
  case metadata =>
    intro other low
    have layout : sb.dataStart ≤ sb.size := Nat.sub_le _ _
    exact marks other (by omega) (.inl low) (image.metadata other low)
  case inData => exact image.inData
  case marked =>
    intro other owner owned
    exact marks other (image.inData other owner owned).2 (.inr ⟨owner, owned⟩)
      (image.marked other owner owned)
  case live =>
    intro other inum place owned
    have live := image.live other inum place owned
    rw [dinodes inum live.1]
    exact live
  case addrs =>
    intro inum exists_
    rw [dinodes inum exists_]
    exact image.addrs inum exists_
  case entries =>
    intro other inum owned
    rw [data other (image.inData other _ owned).1]
    exact image.entries other inum owned
  case dirents =>
    intro other inum place owned notIndirect
    rw [data other (image.inData other _ owned).1,
      dinodes inum (image.live other inum place owned).1]
    exact image.dirents other inum place owned notIndirect

/-- `balloc` marks a block. -/
theorem mark (image : Image sb own skip disk) {block : Nat}
    (inside : block < sb.size) :
    Image sb own skip (Function.update disk (sb.bblock block)
      (setBit (disk (sb.bblock block)) (block % bpb))) := by
  apply image.map_block inside
  intro other _ _ used
  simp [sb.marked_setBit, used]

/-- `bfree` unmarks a block that nobody owns. -/
theorem unmark (image : Image sb own skip disk) {block : Nat}
    (inside : sb.InData block) (unowned : own block = none) :
    Image sb own skip (Function.update disk (sb.bblock block)
      (clearBit (disk (sb.bblock block)) (block % bpb))) := by
  apply image.map_block inside.2
  intro other _ counts used
  have apart : other ≠ block := by
    rintro rfl
    rcases counts with low | ⟨owner, owned⟩
    · exact absurd inside.1 (by omega)
    · simp [unowned] at owned
  simp [sb.marked_clearBit, used, apart]

/-! ## Changes of data and of inodes -/

/-- A write to a block of the data area. -/
theorem data_block (image : Image sb own skip disk) {block : Nat}
    {bytes : Bytes} (inside : sb.InData block)
    (entries : ∀ inum, own block = some (inum, .indirect) →
      ∀ place < nindirect, indirectEntry bytes place ≠ 0 →
        own (indirectEntry bytes place).toNat = some (inum, .entry place))
    (dirents : ∀ inum place, own block = some (inum, place) →
      place ≠ .indirect → (sb.dinode disk inum).type = tDir →
        DirBlock sb bytes) :
    Image sb own skip (Function.update disk block bytes) := by
  have above : sb.bmapstart ≤ block :=
    sb.bmapstart_lt_dataStart.le.trans inside.1
  have dinodes : ∀ inum < sb.ninodes,
      sb.dinode (Function.update disk block bytes) inum =
        sb.dinode disk inum :=
    fun inum exists_ => sb.dinode_update_of_le bytes exists_ above
  have marks : ∀ other < sb.size,
      sb.marked (Function.update disk block bytes) other =
        sb.marked disk other :=
    fun other bound => sb.marked_update_data bytes bound inside.1
  constructor
  case metadata =>
    intro other low
    have layout : sb.dataStart ≤ sb.size := Nat.sub_le _ _
    rw [marks other (by omega)]
    exact image.metadata other low
  case inData => exact image.inData
  case marked =>
    intro other owner owned
    rw [marks other (image.inData other owner owned).2]
    exact image.marked other owner owned
  case live =>
    intro other inum place owned
    have live := image.live other inum place owned
    rw [dinodes inum live.1]
    exact live
  case addrs =>
    intro inum exists_
    rw [dinodes inum exists_]
    exact image.addrs inum exists_
  case entries =>
    intro other inum owned
    by_cases same : other = block
    · subst same
      rw [Function.update_self]
      exact entries inum owned
    · rw [Function.update_of_ne same]
      exact image.entries other inum owned
  case dirents =>
    intro other inum place owned notIndirect
    rw [dinodes inum (image.live other inum place owned).1]
    by_cases same : other = block
    · subst same
      rw [Function.update_self]
      exact dirents inum place owned notIndirect
    · rw [Function.update_of_ne same]
      exact image.dirents other inum place owned notIndirect

/-- A write to one disk inode.  After it, its `addrs` are looked at. -/
theorem put_dinode (image : Image sb own skip disk) {inum : Nat}
    {bytes : Bytes} {dinode : Dinode} (exists_ : inum < sb.ninodes)
    (written : ∀ other,
      sb.dinode (Function.update disk (sb.iblock inum) bytes) other =
        if other = inum then dinode else sb.dinode disk other)
    (skipped : skip = none ∨ skip = some inum)
    (types : ∀ block place, own block = some (inum, place) →
      dinode.type = (sb.dinode disk inum).type)
    (addrs : dinode.type ≠ 0 → ∀ place, dinode.addrs place ≠ 0 →
      own (dinode.addrs place).toNat = some (inum, .addr place)) :
    Image sb own none (Function.update disk (sb.iblock inum) bytes) := by
  have below := sb.iblock_lt exists_
  have start := sb.bmapstart_lt_dataStart
  have data : ∀ other, sb.dataStart ≤ other →
      Function.update disk (sb.iblock inum) bytes other = disk other :=
    fun other data => Function.update_of_ne (by omega) _ _
  have kinds : ∀ block other place, own block = some (other, place) →
      (if other = inum then dinode else sb.dinode disk other).type =
        (sb.dinode disk other).type := by
    intro block other place owned
    split
    · next same =>
      subst same
      exact types block place owned
    · rfl
  constructor
  case metadata =>
    intro other low
    rw [sb.marked_update_inode bytes exists_]
    exact image.metadata other low
  case inData => exact image.inData
  case marked =>
    intro other owner owned
    rw [sb.marked_update_inode bytes exists_]
    exact image.marked other owner owned
  case live =>
    intro block other place owned
    have live := image.live block other place owned
    rw [written other, kinds block other place owned]
    exact live
  case addrs =>
    intro other inside _
    rw [written other]
    split
    · next same =>
      subst same
      exact addrs
    · next apart =>
      apply image.addrs other inside
      rcases skipped with rfl | rfl
      · simp
      · simpa using Ne.symm apart
  case entries =>
    intro block other owned
    rw [data block (image.inData block _ owned).1]
    exact image.entries block other owned
  case dirents =>
    intro block other place owned notIndirect
    rw [data block (image.inData block _ owned).1, written other,
      kinds block other place owned]
    exact image.dirents block other place owned notIndirect

/-! ## Changes of the owners -/

/-- A fresh block is given to a place of a live inode. -/
theorem adopt (image : Image sb own skip disk) {block inum : Nat}
    {place : Place} (fresh : Fresh sb own disk block)
    (exists_ : inum < sb.ninodes)
    (live : (sb.dinode disk inum).type ≠ 0) :
    Image sb (Function.update own block (some (inum, place))) skip disk := by
  have kept : ∀ other owner, own other = some owner →
      Function.update own block (some (inum, place)) other = some owner := by
    intro other owner owned
    rw [Function.update_of_ne, owned]
    rintro rfl
    simp [fresh.unowned] at owned
  have empty : ∀ index, indirectEntry (disk block) index = 0 := by
    intro index
    simp [indirectEntry, fresh.cleared]
  constructor
  case metadata => exact image.metadata
  case inData =>
    intro other owner
    rw [Function.update_apply]
    split
    · next same => exact fun _ => same ▸ fresh.inData
    · exact image.inData other owner
  case marked =>
    intro other owner
    rw [Function.update_apply]
    split
    · next same => exact fun _ => same ▸ fresh.marked
    · exact image.marked other owner
  case live =>
    intro other number place'
    rw [Function.update_apply]
    split
    · rintro ⟨⟩
      exact ⟨exists_, live⟩
    · exact image.live other number place'
  case addrs =>
    intro number inside unskipped alive place' nonzero
    exact kept _ _ (image.addrs number inside unskipped alive place' nonzero)
  case entries =>
    intro other number
    rw [Function.update_apply]
    split
    · next same =>
      intro _ index _ nonzero
      exact absurd (same ▸ empty index) nonzero
    · intro owned index bound nonzero
      exact kept _ _ (image.entries other number owned index bound nonzero)
  case dirents =>
    intro other number place'
    rw [Function.update_apply]
    split
    · next same =>
      intro _ _ _
      rw [same, fresh.cleared]
      exact dirBlock_zeros sb
    · exact image.dirents other number place'

/-- The blocks of an inode that is to be truncated are given up. -/
theorem release (image : Image sb own none disk) (inum : Nat) :
    Image sb (own.release inum) (some inum) disk := by
  constructor
  case metadata => exact image.metadata
  case inData =>
    intro block owner owned
    exact image.inData block owner (Owners.release_eq_some.mp owned).1
  case marked =>
    intro block owner owned
    exact image.marked block owner (Owners.release_eq_some.mp owned).1
  case live =>
    intro block other place owned
    exact image.live block other place (Owners.release_eq_some.mp owned).1
  case addrs =>
    intro other inside apart alive place nonzero
    have owned := image.addrs other inside (by simp) alive place nonzero
    refine Owners.release_eq_some.mpr ⟨owned, ?_⟩
    rintro rfl
    exact apart rfl
  case entries =>
    intro block other owned place bound nonzero
    rcases Owners.release_eq_some.mp owned with ⟨owned, apart⟩
    exact Owners.release_eq_some.mpr
      ⟨image.entries block other owned place bound nonzero, apart⟩
  case dirents =>
    intro block other place owned
    exact image.dirents block other place (Owners.release_eq_some.mp owned).1

end Image

end OSCourse.FileSystem
