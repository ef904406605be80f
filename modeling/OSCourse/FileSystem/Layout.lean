import Mathlib.Data.BitVec
import OSCourse.Library.ByteBlock

/-!
# The on-disk format

`ex5/bonus/fs.h`: the super block, the 128-byte disk inode with its permissions
field, the free map and the directory entries, as byte layouts of 1024-byte
blocks.  There is one device, so device numbers are left out.
-/

namespace OSCourse.FileSystem

open OSCourse.Library.ByteBlock

/-! ## Constants -/

/-- `ROOTINO`. -/
def rootIno : Nat := 1

/-- `BSIZE`. -/
def bsize : Nat := 1024

/-- `NDIRECT`. -/
def ndirect : Nat := 12

/-- `NINDIRECT`, `BSIZE / sizeof(uint)`. -/
def nindirect : Nat := 256

/-- `MAXFILE`. -/
def maxfile : Nat := ndirect + nindirect

/-- `IPB`, `BSIZE / sizeof(struct dinode)`. -/
def ipb : Nat := 8

/-- `BPB`. -/
def bpb : Nat := bsize * 8

/-- `DIRSIZ`. -/
def dirsiz : Nat := 14

/-- `T_DIR` of `stat.h`. -/
def tDir : BitVec 16 := 1

/-- `T_FILE` of `stat.h`. -/
def tFile : BitVec 16 := 2

/-- `T_DEVICE` of `stat.h`. -/
def tDevice : BitVec 16 := 3

/-! ## The super block -/

/--
`struct superblock`, with what `mkfs` promises of the numbers: the inode blocks,
the free map and the `nblocks` data blocks at the end do not overlap, and block
numbers are positive as an `int`.
-/
structure Superblock where
  size : Nat
  nblocks : Nat
  ninodes : Nat
  inodestart : Nat
  bmapstart : Nat
  rootExists : rootIno < ninodes
  inodesBelowMap : inodestart + ninodes / ipb + 1 ≤ bmapstart
  mapBelowData : bmapstart + size / bpb + 1 ≤ size - nblocks
  sizeFits : size < 2 ^ 31

/-- The blocks of a disk. -/
abbrev Disk := Nat → Bytes

namespace Superblock

/-- The first data block. -/
def dataStart (sb : Superblock) : Nat := sb.size - sb.nblocks

/-- `IBLOCK`. -/
def iblock (sb : Superblock) (inum : Nat) : Nat := inum / ipb + sb.inodestart

/-- `BBLOCK`. -/
def bblock (sb : Superblock) (block : Nat) : Nat := block / bpb + sb.bmapstart

/-- A block of the data area. -/
def InData (sb : Superblock) (block : Nat) : Prop :=
  sb.dataStart ≤ block ∧ block < sb.size

variable (sb : Superblock)

theorem iblock_lt {inum : Nat} (exists_ : inum < sb.ninodes) :
    sb.iblock inum < sb.bmapstart := by
  have layout := sb.inodesBelowMap
  simp only [iblock, ipb] at layout ⊢
  omega

theorem bmapstart_le_bblock (block : Nat) :
    sb.bmapstart ≤ sb.bblock block := by
  simp [bblock]

theorem bblock_lt {block : Nat} (inside : block < sb.size) :
    sb.bblock block < sb.dataStart := by
  have layout := sb.mapBelowData
  simp only [bblock, bpb, bsize, dataStart] at layout ⊢
  omega

theorem bmapstart_lt_dataStart : sb.bmapstart < sb.dataStart := by
  have layout := sb.mapBelowData
  exact Nat.lt_of_lt_of_le (Nat.lt_succ_of_le (Nat.le_add_right _ _)) layout

end Superblock

/-! ## Disk inodes -/

/-- `struct dinode` without its padding. -/
@[ext]
structure Dinode where
  type : BitVec 16
  major : BitVec 16
  minor : BitVec 16
  nlink : BitVec 16
  size : BitVec 32
  addrs : Fin (ndirect + 1) → BitVec 32
  permissions : BitVec 16
deriving DecidableEq

/-- The bytes of the array `addrs`. -/
def addrBytes (addrs : Fin (ndirect + 1) → BitVec 32) : Bytes :=
  fun place =>
    if inside : place / 4 < ndirect + 1 then
      littleEndian (addrs ⟨place / 4, inside⟩).toNat (place % 4)
    else 0

/-- The disk inode at index `index` of an inode block. -/
def readDinode (bytes : Bytes) (index : Nat) : Dinode where
  type := BitVec.ofNat 16 (load bytes (128 * index) 2)
  major := BitVec.ofNat 16 (load bytes (128 * index + 2) 2)
  minor := BitVec.ofNat 16 (load bytes (128 * index + 4) 2)
  nlink := BitVec.ofNat 16 (load bytes (128 * index + 6) 2)
  size := BitVec.ofNat 32 (load bytes (128 * index + 8) 4)
  addrs place := BitVec.ofNat 32 (load bytes (128 * index + 12 + 4 * place) 4)
  permissions := BitVec.ofNat 16 (load bytes (128 * index + 64) 2)

/-- The assignments of `iupdate` to the disk inode at index `index`. -/
def writeDinode (bytes : Bytes) (index : Nat) (dinode : Dinode) : Bytes :=
  let bytes := store bytes (128 * index) 2 dinode.type.toNat
  let bytes := store bytes (128 * index + 2) 2 dinode.major.toNat
  let bytes := store bytes (128 * index + 4) 2 dinode.minor.toNat
  let bytes := store bytes (128 * index + 6) 2 dinode.nlink.toNat
  let bytes := store bytes (128 * index + 8) 4 dinode.size.toNat
  let bytes :=
    overwrite bytes (128 * index + 12) 52 (addrBytes dinode.addrs)
  store bytes (128 * index + 64) 2 dinode.permissions.toNat

/-- What `ialloc` stores: zeros, the type and the permissions `0700`. -/
def formatDinode (bytes : Bytes) (index : Nat) (type : BitVec 16) : Bytes :=
  let bytes := overwrite bytes (128 * index) 128 zeros
  let bytes := store bytes (128 * index) 2 type.toNat
  store bytes (128 * index + 64) 2 448

/-- The disk inode that `ialloc` makes. -/
def freshDinode (type : BitVec 16) : Dinode where
  type := type
  major := 0
  minor := 0
  nlink := 0
  size := 0
  addrs _ := 0
  permissions := 448

theorem load_addrBytes (addrs : Fin (ndirect + 1) → BitVec 32)
    (place : Fin (ndirect + 1)) :
    load (addrBytes addrs) (4 * place) 4 = (addrs place).toNat := by
  have same :
      load (addrBytes addrs) (4 * place) 4 =
        load (littleEndian (addrs place).toNat) 0 4 := by
    apply load_congr
    intro distance bound
    have quotient : (4 * (place : Nat) + distance) / 4 = place := by omega
    have remainder : (4 * (place : Nat) + distance) % 4 = distance := by omega
    simp only [addrBytes, quotient, remainder, place.isLt, dite_true,
      Nat.zero_add]
  rw [same, load_littleEndian]
  exact Nat.mod_eq_of_lt (addrs place).isLt

theorem readDinode_writeDinode_same (bytes : Bytes) (index : Nat)
    (dinode : Dinode) :
    readDinode (writeDinode bytes index dinode) index = dinode := by
  have type := dinode.type.isLt
  have major := dinode.major.isLt
  have minor := dinode.minor.isLt
  have nlink := dinode.nlink.isLt
  have size := dinode.size.isLt
  have permissions := dinode.permissions.isLt
  ext1
  case addrs =>
    funext place
    have bound : (place : Nat) < 13 := place.isLt
    simp (disch := omega) only [readDinode, writeDinode, load_store_outside,
      load_overwrite_inside, load_addrBytes, BitVec.ofNat_toNat,
      BitVec.setWidth_eq]
  all_goals
    simp (disch := omega) only [readDinode, writeDinode, load_store_outside,
      load_overwrite_outside, load_store_same, BitVec.ofNat_toNat,
      BitVec.setWidth_eq]

/-- Writing a disk inode leaves the bytes of the other inodes. -/
theorem writeDinode_outside (bytes : Bytes) {index place : Nat}
    (dinode : Dinode)
    (outside : place < 128 * index ∨ 128 * (index + 1) ≤ place) :
    writeDinode bytes index dinode place = bytes place := by
  simp only [writeDinode, store, overwrite]
  repeat rw [if_neg (by omega)]

/-- The disk inode that `ialloc` stores is read back. -/
theorem readDinode_formatDinode_same (bytes : Bytes) (index : Nat)
    (type : BitVec 16) :
    readDinode (formatDinode bytes index type) index = freshDinode type := by
  have bound := type.isLt
  ext1
  case addrs =>
    funext place
    have inside : (place : Nat) < 13 := place.isLt
    simp (disch := omega) only [readDinode, formatDinode, freshDinode,
      load_store_outside, Nat.add_assoc, load_overwrite_inside, load_zeros]
    rfl
  case type =>
    simp (disch := omega) only [readDinode, formatDinode, freshDinode,
      load_store_outside, load_store_same, BitVec.ofNat_toNat,
      BitVec.setWidth_eq]
  case permissions =>
    simp (disch := omega) only [readDinode, formatDinode, freshDinode,
      load_store_same]
    rfl
  all_goals
    simp (disch := omega) only [readDinode, formatDinode, freshDinode,
      load_store_outside, load_overwrite_inside, load_zeros]
    rfl

/-- Allocating a disk inode leaves the bytes of the other inodes. -/
theorem formatDinode_outside (bytes : Bytes) {index place : Nat}
    (type : BitVec 16)
    (outside : place < 128 * index ∨ 128 * (index + 1) ≤ place) :
    formatDinode bytes index type place = bytes place := by
  simp only [formatDinode, store, overwrite]
  repeat rw [if_neg (by omega)]

/-- A disk inode is determined by its own 128 bytes. -/
theorem readDinode_congr {bytes other : Bytes} {index : Nat}
    (same : ∀ place, 128 * index ≤ place → place < 128 * (index + 1) →
      bytes place = other place) :
    readDinode bytes index = readDinode other index := by
  have field : ∀ offset width, offset + width ≤ 128 →
      load bytes (128 * index + offset) width =
        load other (128 * index + offset) width := by
    intro offset width inside
    apply load_congr
    intro place bound
    exact same _ (by omega) (by omega)
  ext1
  case addrs =>
    funext place
    have bound : (place : Nat) < 13 := place.isLt
    simp only [readDinode, Nat.add_assoc]
    rw [field _ _ (by omega)]
  case type => exact congrArg (BitVec.ofNat 16) (field 0 2 (by omega))
  all_goals
    simp only [readDinode]
    rw [field _ _ (by omega)]

/-! ## The free map -/

/-- The mask `1 << (bi % 8)`. -/
def bitMask (bit : Nat) : BitVec 8 := BitVec.twoPow 8 (bit % 8)

/-- Is the bit of a map block set? -/
def isSet (bytes : Bytes) (bit : Nat) : Bool :=
  bytes (bit / 8) &&& bitMask bit != 0

/-- `data[bi/8] |= m`. -/
def setBit (bytes : Bytes) (bit : Nat) : Bytes :=
  Function.update bytes (bit / 8) (bytes (bit / 8) ||| bitMask bit)

/-- `data[bi/8] &= ~m`. -/
def clearBit (bytes : Bytes) (bit : Nat) : Bytes :=
  Function.update bytes (bit / 8) (bytes (bit / 8) &&& ~~~ bitMask bit)

theorem isSet_eq_getLsbD (bytes : Bytes) (bit : Nat) :
    isSet bytes bit = (bytes (bit / 8)).getLsbD (bit % 8) := by
  have small : bit % 8 < 8 := Nat.mod_lt _ (by omega)
  rw [isSet, bitMask, BitVec.and_twoPow]
  cases (bytes (bit / 8)).getLsbD (bit % 8) with
  | false => simp
  | true =>
      have nonzero : BitVec.twoPow 8 (bit % 8) ≠ 0 := by
        intro zero
        have := congrArg (fun value => value.getLsbD (bit % 8)) zero
        simp [small] at this
      simpa using nonzero

theorem isSet_setBit (bytes : Bytes) (bit other : Nat) :
    isSet (setBit bytes bit) other =
      (decide (other = bit) || isSet bytes other) := by
  have small : bit % 8 < 8 := Nat.mod_lt _ (by omega)
  simp only [isSet_eq_getLsbD, setBit, Function.update_apply]
  split
  · next byte =>
    have same : other = bit ↔ bit % 8 = other % 8 := by omega
    simp only [BitVec.getLsbD_or, bitMask, BitVec.getLsbD_twoPow, small, byte,
      same, decide_true, Bool.true_and, Bool.or_comm]
  · next byte =>
    have different : other ≠ bit := by
      rintro rfl
      exact byte rfl
    simp [different]

theorem isSet_clearBit (bytes : Bytes) (bit other : Nat) :
    isSet (clearBit bytes bit) other =
      (!decide (other = bit) && isSet bytes other) := by
  have small : bit % 8 < 8 := Nat.mod_lt _ (by omega)
  have bound : other % 8 < 8 := Nat.mod_lt _ (by omega)
  simp only [isSet_eq_getLsbD, clearBit, Function.update_apply]
  split
  · next byte =>
    have same : other = bit ↔ bit % 8 = other % 8 := by omega
    simp only [BitVec.getLsbD_and, BitVec.getLsbD_not, bitMask,
      BitVec.getLsbD_twoPow, small, bound, byte, same, decide_true,
      Bool.true_and, Bool.and_comm]
  · next byte =>
    have different : other ≠ bit := by
      rintro rfl
      exact byte rfl
    simp [different]

/-! ## Inodes and free map of a whole disk -/

namespace Superblock

variable (sb : Superblock)

/-- The disk inode `inum`. -/
def dinode (disk : Disk) (inum : Nat) : Dinode :=
  readDinode (disk (sb.iblock inum)) (inum % ipb)

/-- Is the block marked in use? -/
def marked (disk : Disk) (block : Nat) : Bool :=
  isSet (disk (sb.bblock block)) (block % bpb)

/-- Blocks from the free map on hold no inodes. -/
theorem dinode_update_of_le {disk : Disk} {block inum : Nat} (bytes : Bytes)
    (exists_ : inum < sb.ninodes) (above : sb.bmapstart ≤ block) :
    sb.dinode (Function.update disk block bytes) inum =
      sb.dinode disk inum := by
  have below := sb.iblock_lt exists_
  rw [dinode, dinode, Function.update_of_ne (by omega)]

/-- Data blocks hold no part of the free map. -/
theorem marked_update_data {disk : Disk} {block other : Nat} (bytes : Bytes)
    (inside : other < sb.size) (data : sb.dataStart ≤ block) :
    sb.marked (Function.update disk block bytes) other =
      sb.marked disk other := by
  have below := sb.bblock_lt inside
  rw [marked, marked, Function.update_of_ne (by omega)]

/-- Inode blocks hold no part of the free map. -/
theorem marked_update_inode {disk : Disk} {inum other : Nat} (bytes : Bytes)
    (exists_ : inum < sb.ninodes) :
    sb.marked (Function.update disk (sb.iblock inum) bytes) other =
      sb.marked disk other := by
  have below := sb.iblock_lt exists_
  have above := sb.bmapstart_le_bblock other
  rw [marked, marked, Function.update_of_ne (by omega)]

/-- A change of one inode's bytes changes no other inode. -/
theorem dinode_update_other {disk : Disk} {inum other : Nat} {bytes : Bytes}
    (different : other ≠ inum)
    (same : ∀ place,
      place < 128 * (inum % ipb) ∨ 128 * (inum % ipb + 1) ≤ place →
        bytes place = disk (sb.iblock inum) place) :
    sb.dinode (Function.update disk (sb.iblock inum) bytes) other =
      sb.dinode disk other := by
  simp only [dinode, Function.update_apply]
  split
  · next block =>
    rw [block]
    apply readDinode_congr
    intro place low high
    apply same
    simp only [iblock, ipb] at block low high ⊢
    omega
  · rfl

/-- `iupdate` changes the disk inode it writes and no other. -/
theorem dinode_writeDinode (disk : Disk) (inum other : Nat)
    (dinode : Dinode) :
    sb.dinode (Function.update disk (sb.iblock inum)
        (writeDinode (disk (sb.iblock inum)) (inum % ipb) dinode)) other =
      if other = inum then dinode else sb.dinode disk other := by
  split
  · next equal =>
    subst equal
    simp [Superblock.dinode, readDinode_writeDinode_same]
  · next different =>
    exact sb.dinode_update_other different
      (fun _ => writeDinode_outside _ dinode)

/-- `ialloc` changes the disk inode it takes and no other. -/
theorem dinode_formatDinode (disk : Disk) (inum other : Nat)
    (type : BitVec 16) :
    sb.dinode (Function.update disk (sb.iblock inum)
        (formatDinode (disk (sb.iblock inum)) (inum % ipb) type)) other =
      if other = inum then freshDinode type else sb.dinode disk other := by
  split
  · next equal =>
    subst equal
    simp [Superblock.dinode, readDinode_formatDinode_same]
  · next different =>
    exact sb.dinode_update_other different
      (fun _ => formatDinode_outside _ type)

theorem same_block_iff (block other : Nat) :
    other = block ↔
      sb.bblock other = sb.bblock block ∧ other % bpb = block % bpb := by
  constructor
  · rintro rfl
    exact ⟨rfl, rfl⟩
  · rintro ⟨quotient, remainder⟩
    simp only [bblock, bpb, bsize] at quotient remainder
    omega

/-- `balloc` marks the block it takes and no other. -/
theorem marked_setBit (disk : Disk) (block other : Nat) :
    sb.marked (Function.update disk (sb.bblock block)
        (setBit (disk (sb.bblock block)) (block % bpb))) other =
      (decide (other = block) || sb.marked disk other) := by
  simp only [marked, Function.update_apply]
  split
  · next equal =>
    simp only [isSet_setBit, equal, sb.same_block_iff block other, true_and]
  · next different =>
    have apart : other ≠ block := by
      rintro rfl
      exact different rfl
    simp [apart]

/-- `bfree` unmarks its block and no other. -/
theorem marked_clearBit (disk : Disk) (block other : Nat) :
    sb.marked (Function.update disk (sb.bblock block)
        (clearBit (disk (sb.bblock block)) (block % bpb))) other =
      (!decide (other = block) && sb.marked disk other) := by
  simp only [marked, Function.update_apply]
  split
  · next equal =>
    simp only [isSet_clearBit, equal, sb.same_block_iff block other, true_and]
  · next different =>
    have apart : other ≠ block := by
      rintro rfl
      exact different rfl
    simp [apart]

end Superblock

end OSCourse.FileSystem
