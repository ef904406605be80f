import Mathlib.Data.Finset.Card
import OSCourse.FileSystem.DirectoryContent

/-!
# A file system check

What a check of the whole file system would look for holds in every state that
the calls of `Call` reach: every reference count of an inode is the number of
files and processes that refer to it, every reference count of a file is the
number of its descriptors, no inode is in the table twice, no block belongs to
two files or to two places of one file, blocks in use are marked in the free
map, and a directory names only numbers of the inodes of the disk.
-/

namespace OSCourse.FileSystem

open OSCourse.Library
open OSCourse.Library.ByteBlock
open OSCourse.Library.TransitionSystem

variable {k : Kernel} {frame : Frame} {own : Owners} {state : Fs}

/-! ## Who refers to an inode -/

/-- The open file or the process refers to entry `ip` of the inode table. -/
def Holder.Refers (state : Fs) (ip : Nat) : Holder → Prop
  | .cwd p => (state.proc p).cwd = some ip
  | .file f => (state.file f).type ≠ .none ∧ (state.file f).ip = ip

theorem holdCount_eq_length (held : List (Holder × Hold)) (ip : Nat) :
    holdCount (held.map Prod.snd) ip =
      (held.filter fun pair => pair.2.slot = ip).length := by
  induction held with
  | nil => rfl
  | cons pair rest induction =>
      rw [List.map_cons, holdCount_cons, induction, List.filter_cons]
      split
      · next same => simp [same]
      · next apart => simp [apart]

/-- The files and processes that refer to an entry are as many as the
references to it. -/
theorem Tables.referrers {held : List (Holder × Hold)}
    (tables : Tables state.file state.proc held) (ip : Nat) :
    ∃ holders : Finset Holder,
      (∀ holder, holder ∈ holders ↔ holder.Refers state ip) ∧
        holders.card = holdCount (held.map Prod.snd) ip := by
  have distinct : ((held.filter fun pair => pair.2.slot = ip).map
      Prod.fst).Nodup :=
    tables.nodup.sublist (List.filter_sublist.map _)
  refine ⟨((held.filter fun pair => pair.2.slot = ip).map
    Prod.fst).toFinset, fun holder => ?_, ?_⟩
  · have listed : holder ∈ ((held.filter fun pair => pair.2.slot = ip).map
        Prod.fst).toFinset ↔ ∃ hold, (holder, hold) ∈ held ∧
          hold.slot = ip := by
      simp
    rw [listed]
    constructor
    · rintro ⟨hold, member, rfl⟩
      cases holder with
      | cwd p => exact tables.cwds p hold member
      | file f =>
          have known := tables.files f hold member
          exact ⟨known.opened, known.ip⟩
    · intro refers
      cases holder with
      | cwd p => exact tables.cwdHeld p ip refers
      | file f =>
          rcases tables.fileHeld f refers.1 with ⟨hold, member⟩
          exact ⟨hold, member,
            (tables.files f hold member).ip.symm.trans refers.2⟩
  · rw [List.toFinset_card_of_nodup distinct, List.length_map,
      holdCount_eq_length]

/-! ## Blocks in use -/

/-- The block to which an inode refers at a place; zero if to none. -/
def blockAt (k : Kernel) (state : Fs) (inum : Nat) : Place → BitVec 32
  | .addr place => (copyOf k state inum).addrs place
  | .entry place =>
      if (copyOf k state inum).addrs (Fin.last ndirect) = 0 ∨
        nindirect ≤ place then 0
      else indirectEntry (state.disk
        ((copyOf k state inum).addrs (Fin.last ndirect)).toNat) place

/-- The inode is in use. -/
def Live (k : Kernel) (state : Fs) (inum : Nat) : Prop :=
  inum < k.sb.ninodes ∧ (copyOf k state inum).type ≠ 0

namespace Good

variable {held : List Hold} {inum : Nat}

theorem blockAt_owned (good : Good k frame own none held state)
    (live : Live k state inum) {place : Place}
    (nonzero : blockAt k state inum place ≠ 0) :
    own (blockAt k state inum place).toNat = some (inum, place) := by
  have owned := good.owned_copyOf live.1 live.2
  cases place with
  | addr place => exact owned.addrs place nonzero
  | entry place =>
      simp only [blockAt] at nonzero ⊢
      split at nonzero
      · exact absurd rfl nonzero
      · next inside =>
        rw [not_or, Nat.not_le] at inside
        rw [if_neg (not_or.mpr ⟨inside.1, Nat.not_le.mpr inside.2⟩)]
        exact owned.entries inside.1 place inside.2 nonzero

/-- Every entry of a directory is the number of an inode. -/
theorem entry_lt (good : Good k frame own none held state)
    (live : Live k state inum) (directory : (copyOf k state inum).type = tDir)
    {index : Nat} (inside : 16 * (index + 1) ≤ maxfile * bsize) :
    ByteBlock.load (byteAt state.disk (copyOf k state inum)) (16 * index) 2 <
      k.sb.ninodes := by
  have owned := good.owned_copyOf live.1 live.2
  have bound : 16 * index / bsize < maxfile :=
    Nat.div_lt_of_lt_mul (by rw [Nat.mul_comm bsize]; omega)
  have sum := Nat.div_add_mod (16 * index) bsize
  have small : 16 * index % bsize < bsize := Nat.mod_lt _ (by decide)
  have entry : ∃ place < 64, 16 * index % bsize = 16 * place := by
    simp only [bsize] at small ⊢
    exact ⟨index % 64, Nat.mod_lt _ (by decide), by omega⟩
  rcases entry with ⟨place, fits, rest⟩
  have near : ∀ distance < 2,
      (16 * index + distance) / bsize = 16 * index / bsize ∧
        (16 * index + distance) % bsize = 16 * place + distance := by
    intro distance few
    simp only [bsize] at *
    omega
  by_cases missing :
      blockOf state.disk (copyOf k state inum) (16 * index / bsize) = 0
  · have empty : ByteBlock.load (byteAt state.disk (copyOf k state inum))
        (16 * index) 2 = ByteBlock.load zeros 0 2 := by
      apply load_congr
      intro distance few
      rw [byteAt, (near distance few).1, if_pos missing]
      rfl
    rw [empty, load_zeros]
    exact Nat.zero_lt_of_lt live.1
  · have stored : ByteBlock.load (byteAt state.disk (copyOf k state inum))
        (16 * index) 2 = ByteBlock.load (state.disk (blockOf state.disk
          (copyOf k state inum) (16 * index / bsize)).toNat)
            (16 * place) 2 := by
      apply load_congr
      intro distance few
      rw [byteAt, (near distance few).1, if_neg missing,
        (near distance few).2]
    rw [stored]
    refine good.image.dirents _ _ _ (owned.blockOf bound missing)
      (placeOf_ne_indirect _) ?_ place fits
    rw [← good.copyOf_type]
    exact directory

end Good

/-! ## The check -/

/-- What a check of the file system looks for. -/
structure Checked (k : Kernel) (state : Fs) : Prop where
  counted : ∀ ip, ∃ holders : Finset Holder,
    (∀ holder, holder ∈ holders ↔ holder.Refers state ip) ∧
      (state.inode ip).ref = holders.card
  slots : ∀ ip, 0 < (state.inode ip).ref →
    ip < k.ninode ∧ (state.inode ip).inum < k.sb.ninodes
  unique : ∀ ip jp, 0 < (state.inode ip).ref → 0 < (state.inode jp).ref →
    (state.inode ip).inum = (state.inode jp).inum → ip = jp
  copies : ∀ ip, 0 < (state.inode ip).ref → (state.inode ip).valid = true →
    (state.inode ip).copy.type ≠ 0 ∧
      Agrees (state.inode ip).copy
        (k.sb.dinode state.disk (state.inode ip).inum)
  descriptors : ∀ p fd f, (state.proc p).ofile fd = some f →
    (state.file f).type ≠ .none
  files : ∀ f, (state.file f).type ≠ .none →
    ∃ pairs, Describes state.proc f pairs ∧ pairs.Nonempty ∧
      (state.file f).ref = pairs.card
  metadata : ∀ block < k.sb.dataStart, k.sb.marked state.disk block = true
  marked : ∀ inum place, Live k state inum → blockAt k state inum place ≠ 0 →
    k.sb.InData (blockAt k state inum place).toNat ∧
      k.sb.marked state.disk (blockAt k state inum place).toNat = true
  disjoint : ∀ inum other place elsewhere, Live k state inum →
    Live k state other → blockAt k state inum place ≠ 0 →
      blockAt k state inum place = blockAt k state other elsewhere →
        inum = other ∧ place = elsewhere
  entries : ∀ inum whole index, inum < k.sb.ninodes →
    content k state inum = some whole → (copyOf k state inum).type = tDir →
      16 * (index + 1) ≤ whole.length →
        direntInum (entryAt whole index) < k.sb.ninodes

/-- A state between calls passes the check. -/
theorem Ready.checked {initial : Nat → BitVec 16}
    (ready : Ready k initial state) : Checked k state := by
  rcases ready with ⟨frame, held, _, _, tables, own, good⟩
  rw [← good.file, ← good.proc] at tables
  constructor
  case counted =>
    intro ip
    rcases tables.referrers ip with ⟨holders, refers, card⟩
    exact ⟨holders, refers, (good.table.counted ip).trans card.symm⟩
  case slots =>
    exact fun ip used => ⟨good.slot_lt used, good.table.range ip used⟩
  case unique => exact good.table.unique
  case copies =>
    intro ip used valid
    have loaded := good.table.loaded ip used valid
    exact ⟨loaded.live, loaded.agrees⟩
  case descriptors => exact tables.descriptors
  case files =>
    intro f opened
    rcases tables.counted f opened with ⟨pairs, describes, card⟩
    rcases tables.fileHeld f opened with ⟨hold, member⟩
    have referenced := (tables.files f hold member).ref
    exact ⟨pairs, describes, Finset.card_pos.mp (card ▸ referenced), card⟩
  case metadata => exact good.image.metadata
  case marked =>
    intro inum place live nonzero
    have owned := good.blockAt_owned live nonzero
    exact ⟨good.image.inData _ _ owned, good.image.marked _ _ owned⟩
  case disjoint =>
    intro inum other place elsewhere live alive nonzero same
    have first := good.blockAt_owned live nonzero
    have second := good.blockAt_owned alive (same ▸ nonzero)
    rw [← same, first] at second
    cases second
    exact ⟨rfl, rfl⟩
  case entries =>
    intro inum whole index exists_ known directory inside
    unfold content at known
    split at known
    · cases known
    · next live =>
      cases known
      rw [length_slice] at inside
      have reached : reachedSize (copyOf k state inum).size ≤
          maxfile * bsize := Nat.min_le_right _ _
      rw [entryAt, drop_slice, take_slice, Nat.min_eq_left (by omega), slice,
        direntInum_read, Nat.zero_add]
      exact good.entry_lt ⟨exists_, live⟩ directory (inside.trans reached)

/--
In every reachable state, after any calls of `Call` by any processes in any
order, the file system passes the check.
-/
theorem checked_of_reachable {disk : Disk} (consistent : Consistent k.sb disk)
    (reached : (fileSystem k disk).Reachable state) : Checked k state :=
  (ready_of_reachable consistent reached).checked

/-- Process 0 has the file `f` open with two descriptors. -/
def fileShared : Fs :=
  smallRun (smallFile 5 5 0)
    [(0, .chmod (some [slash, 102]) 384),
      (0, .open (some [slash, 102]) oRdwr), (0, .dup 0)]

theorem checked_of_reachable_fileShared :
    (fileShared.file 0).ref = 2 ∧ Checked smallKernel fileShared := by
  have shared : (fileShared.file 0).ref = 2 := by decide +kernel
  exact ⟨shared, checked_of_reachable smallDisk_consistent
    (smallRun_reachable _ _)⟩

end OSCourse.FileSystem
