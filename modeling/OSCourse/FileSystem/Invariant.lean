import OSCourse.FileSystem.Ownership
import OSCourse.FileSystem.Sysfile

/-!
# The invariant of the inode table

Permissions live on disk and in the inode table.  The invariant says that the
two copies agree, that the copy on disk is the one the history of the run asks
for, and that the table counts the references that the kernel holds.

A reference is a `Hold`: an entry of the table, the inode in it, and its type
once the holder has locked it.  While it is held the entry is not recycled, and
an inode that was read stays read.
-/

namespace OSCourse.FileSystem

open OSCourse.Library.ByteBlock

/-! ## Permissions by history -/

/-- The permissions an inode must have, by the events since the start. -/
def lastPermissions (initial : Nat → BitVec 16) :
    List Event → Nat → BitVec 16
  | [], inum => initial inum
  | .allocated other :: earlier, inum =>
      if other = inum then 448 else lastPermissions initial earlier inum
  | .chmod other mode :: earlier, inum =>
      if other = inum then maskMode mode
      else lastPermissions initial earlier inum

/-! ## References -/

/-- A reference to an entry of the inode table. -/
structure Hold where
  slot : Nat
  inum : Nat
  loaded : Option (BitVec 16)

/-- How many references are to entry `ip`. -/
def holdCount (held : List Hold) (ip : Nat) : Nat :=
  (held.map Hold.slot).count ip

@[simp]
theorem holdCount_cons (hold : Hold) (held : List Hold) (ip : Nat) :
    holdCount (hold :: held) ip =
      holdCount held ip + if hold.slot = ip then 1 else 0 := by
  simp [holdCount, List.count_cons]

theorem holdCount_pos {held : List Hold} {hold : Hold}
    (member : hold ∈ held) : 0 < holdCount held hold.slot :=
  List.count_pos_iff.mpr (List.mem_map_of_mem member)

theorem holdCount_perm {held other : List Hold} (perm : held.Perm other)
    (ip : Nat) : holdCount held ip = holdCount other ip :=
  (perm.map Hold.slot).count_eq ip

/-! ## The table -/

/-- The fields in which a copy in the table always agrees with the disk. -/
structure Agrees (copy dinode : Dinode) : Prop where
  type : copy.type = dinode.type
  size : copy.size = dinode.size
  permissions : copy.permissions = dinode.permissions

/-- What is known of an entry that was read from disk. -/
structure Loaded (sb : Superblock) (own : Owners) (skip : Option Nat)
    (disk : Disk) (inode : Inode) : Prop where
  agrees : Agrees inode.copy (sb.dinode disk inode.inum)
  live : inode.copy.type ≠ 0
  addrs : skip ≠ some inode.inum → ∀ place, inode.copy.addrs place ≠ 0 →
    own (inode.copy.addrs place).toNat = some (inode.inum, .addr place)

/-- The inode table with the references `held`. -/
structure Table (sb : Superblock) (own : Owners) (skip : Option Nat)
    (disk : Disk) (inode : Nat → Inode) (held : List Hold) : Prop where
  counted : ∀ ip, (inode ip).ref = holdCount held ip
  unique : ∀ ip jp, 0 < (inode ip).ref → 0 < (inode jp).ref →
    (inode ip).inum = (inode jp).inum → ip = jp
  range : ∀ ip, 0 < (inode ip).ref → (inode ip).inum < sb.ninodes
  loaded : ∀ ip, 0 < (inode ip).ref → (inode ip).valid = true →
    Loaded sb own skip disk (inode ip)
  holds : ∀ hold ∈ held, (inode hold.slot).inum = hold.inum ∧
    ∀ type, hold.loaded = some type →
      (inode hold.slot).valid = true ∧ (inode hold.slot).copy.type = type

namespace Table

variable {sb : Superblock} {own : Owners} {skip : Option Nat} {disk : Disk}
  {inode : Nat → Inode} {held : List Hold}

theorem ref_pos (table : Table sb own skip disk inode held) {hold : Hold}
    (member : hold ∈ held) : 0 < (inode hold.slot).ref := by
  rw [table.counted]
  exact holdCount_pos member

theorem inum_lt (table : Table sb own skip disk inode held) {hold : Hold}
    (member : hold ∈ held) : hold.inum < sb.ninodes := by
  rw [← (table.holds hold member).1]
  exact table.range _ (table.ref_pos member)

/-- An entry in use has a holder. -/
theorem exists_hold (table : Table sb own skip disk inode held) {ip : Nat}
    (used : 0 < (inode ip).ref) : ∃ hold ∈ held, hold.slot = ip := by
  rw [table.counted] at used
  exact List.mem_map.mp (List.count_pos_iff.mp used)

/-- What is known of an entry whose holder has read it. -/
theorem loaded_of_hold (table : Table sb own skip disk inode held)
    {ip inum : Nat} {type : BitVec 16}
    (member : ⟨ip, inum, some type⟩ ∈ held) :
    (inode ip).inum = inum ∧ (inode ip).valid = true ∧
      (inode ip).copy.type = type ∧ Loaded sb own skip disk (inode ip) := by
  rcases table.holds _ member with ⟨number, known⟩
  rcases known type rfl with ⟨valid, kind⟩
  exact ⟨number, valid, kind, table.loaded ip (table.ref_pos member) valid⟩

theorem perm (table : Table sb own skip disk inode held)
    {other : List Hold} (same : held.Perm other) :
    Table sb own skip disk inode other where
  counted ip := by rw [table.counted, holdCount_perm same]
  unique := table.unique
  range := table.range
  loaded := table.loaded
  holds hold member := table.holds hold (same.mem_iff.mpr member)

/-- The table reads only the inodes of the disk. -/
theorem of_dinodes (table : Table sb own skip disk inode held) {after : Disk}
    (dinodes : ∀ inum < sb.ninodes,
      sb.dinode after inum = sb.dinode disk inum) :
    Table sb own skip after inode held where
  counted := table.counted
  unique := table.unique
  range := table.range
  loaded ip used valid := by
    have known := table.loaded ip used valid
    have same := dinodes _ (table.range ip used)
    exact ⟨same ▸ known.agrees, known.live, known.addrs⟩
  holds := table.holds

/-- More owners, or one more inode whose `addrs` are not looked at. -/
theorem of_owners (table : Table sb own skip disk inode held)
    {own' : Owners} {skip' : Option Nat}
    (kept : ∀ block inum place, skip' ≠ some inum →
      own block = some (inum, place) → own' block = some (inum, place))
    (skips : ∀ inum, skip' ≠ some inum → skip ≠ some inum) :
    Table sb own' skip' disk inode held where
  counted := table.counted
  unique := table.unique
  range := table.range
  loaded ip used valid := by
    have known := table.loaded ip used valid
    refine ⟨known.agrees, known.live, ?_⟩
    intro unskipped place nonzero
    exact kept _ _ _ unskipped
      (known.addrs (skips _ unskipped) place nonzero)
  holds := table.holds

/--
A change of one entry that keeps its references and its inode, with any change
of the disk and of the owners that the other entries do not see.
-/
theorem update_entry (table : Table sb own skip disk inode held) {ip : Nat}
    {new : Inode} {own' : Owners} {skip' : Option Nat} {after : Disk}
    (ref : new.ref = (inode ip).ref) (inum : new.inum = (inode ip).inum)
    (keeps : (inode ip).valid = true →
      new.valid = true ∧ new.copy.type = (inode ip).copy.type)
    (others : ∀ jp, jp ≠ ip → 0 < (inode jp).ref → (inode jp).valid = true →
      Loaded sb own' skip' after (inode jp))
    (sound : 0 < new.ref → new.valid = true →
      Loaded sb own' skip' after new) :
    Table sb own' skip' after (Function.update inode ip new) held := by
  have refs : ∀ jp, (Function.update inode ip new jp).ref = (inode jp).ref := by
    intro jp
    rw [Function.update_apply]
    split
    · next same => rw [same, ref]
    · rfl
  have inums : ∀ jp,
      (Function.update inode ip new jp).inum = (inode jp).inum := by
    intro jp
    rw [Function.update_apply]
    split
    · next same => rw [same, inum]
    · rfl
  constructor
  case counted =>
    intro jp
    rw [refs]
    exact table.counted jp
  case unique =>
    intro jp kp
    simp only [refs, inums]
    exact table.unique jp kp
  case range =>
    intro jp
    simp only [refs, inums]
    exact table.range jp
  case loaded =>
    intro jp
    rw [Function.update_apply]
    split
    · exact sound
    · next apart => exact others jp apart
  case holds =>
    intro hold member
    rcases table.holds hold member with ⟨number, known⟩
    refine ⟨by rw [inums, number], ?_⟩
    intro type loaded
    rcases known type loaded with ⟨valid, kind⟩
    rw [Function.update_apply]
    split
    · next same =>
      rw [same] at valid kind
      exact ⟨(keeps valid).1, (keeps valid).2.trans kind⟩
    · exact ⟨valid, kind⟩

/-- A change of one entry that keeps its references and its inode. -/
theorem replace (table : Table sb own skip disk inode held) {ip : Nat}
    {new : Inode} (ref : new.ref = (inode ip).ref)
    (inum : new.inum = (inode ip).inum)
    (keeps : (inode ip).valid = true →
      new.valid = true ∧ new.copy.type = (inode ip).copy.type)
    (sound : 0 < new.ref → new.valid = true →
      Loaded sb own skip disk new) :
    Table sb own skip disk (Function.update inode ip new) held :=
  table.update_entry ref inum keeps (fun jp _ => table.loaded jp) sound

/-- The entries of other inodes do not see a write of one disk inode. -/
theorem loaded_put_dinode (table : Table sb own skip disk inode held)
    {ip inum : Nat} {after : Disk} {dinode : Dinode}
    (written : ∀ other, sb.dinode after other =
      if other = inum then dinode else sb.dinode disk other)
    (skipped : skip = none ∨ skip = some inum)
    (used : 0 < (inode ip).ref) (valid : (inode ip).valid = true)
    (apart : (inode ip).inum ≠ inum) :
    Loaded sb own none after (inode ip) := by
  have known := table.loaded ip used valid
  have same : sb.dinode after (inode ip).inum =
      sb.dinode disk (inode ip).inum := by
    rw [written, if_neg apart]
  refine ⟨same ▸ known.agrees, known.live, fun _ => known.addrs ?_⟩
  rcases skipped with rfl | rfl
  · simp
  · simpa using Ne.symm apart

/-- `iupdate`: an entry, possibly edited, is written to disk. -/
theorem flush (table : Table sb own skip disk inode held) {ip : Nat}
    {new : Inode} {after : Disk} (used : 0 < (inode ip).ref)
    (ref : new.ref = (inode ip).ref) (inum : new.inum = (inode ip).inum)
    (keeps : (inode ip).valid = true →
      new.valid = true ∧ new.copy.type = (inode ip).copy.type)
    (written : ∀ other, sb.dinode after other =
      if other = (inode ip).inum then new.copy else sb.dinode disk other)
    (skipped : skip = none ∨ skip = some (inode ip).inum)
    (live : new.copy.type ≠ 0)
    (addrs : ∀ place, new.copy.addrs place ≠ 0 →
      own (new.copy.addrs place).toNat =
        some ((inode ip).inum, .addr place)) :
    Table sb own none after (Function.update inode ip new) held := by
  apply table.update_entry ref inum keeps
  · intro jp apart usedToo valid
    refine table.loaded_put_dinode written skipped usedToo valid ?_
    exact fun same => apart (table.unique jp ip usedToo used same)
  · intro _ _
    have same : sb.dinode after new.inum = new.copy := by
      rw [written, if_pos inum]
    refine ⟨⟨by rw [same], by rw [same], by rw [same]⟩, live, fun _ => ?_⟩
    rw [inum]
    exact addrs

/-- A new reference to an entry in use. -/
theorem push (table : Table sb own skip disk inode held) {ip : Nat}
    (used : 0 < (inode ip).ref) :
    Table sb own skip disk
      (Function.update inode ip { inode ip with ref := (inode ip).ref + 1 })
      (⟨ip, (inode ip).inum, none⟩ :: held) := by
  have counted := table.counted
  constructor
  case counted =>
    intro jp
    rw [Function.update_apply, holdCount_cons, ← counted jp]
    split
    · next same => simp [same]
    · next apart => simp [Ne.symm apart]
  case unique =>
    intro jp kp
    have unique := table.unique jp kp
    grind
  case range =>
    intro jp
    have range := table.range jp
    grind
  case loaded =>
    intro jp
    have loaded := table.loaded jp
    rw [Function.update_apply]
    split
    · next same =>
      intro _ valid
      subst same
      have known := loaded used valid
      exact ⟨known.agrees, known.live, known.addrs⟩
    · exact loaded
  case holds =>
    intro hold member
    have holds := table.holds hold
    grind

/-- An entry without references is given to another inode. -/
theorem recycle (table : Table sb own skip disk inode held)
    {ip inum : Nat} (exists_ : inum < sb.ninodes)
    (free : (inode ip).ref = 0)
    (absent : ∀ jp, 0 < (inode jp).ref → (inode jp).inum ≠ inum) :
    Table sb own skip disk
      (Function.update inode ip
        { inode ip with inum := inum, ref := 1, valid := false })
      (⟨ip, inum, none⟩ :: held) := by
  have counted := table.counted
  constructor
  case counted =>
    intro jp
    rw [Function.update_apply, holdCount_cons, ← counted jp]
    split
    · next same => simp [same, free]
    · next apart => simp [Ne.symm apart]
  case unique =>
    intro jp kp
    have unique := table.unique jp kp
    have left := absent jp
    have right := absent kp
    grind
  case range =>
    intro jp
    have range := table.range jp
    grind
  case loaded =>
    intro jp
    have loaded := table.loaded jp
    rw [Function.update_apply]
    split
    · simp
    · exact loaded
  case holds =>
    intro hold member
    have holds := table.holds hold
    have used := @ref_pos _ _ _ _ _ _ table hold
    grind

/--
A reference is given up, with any change of the disk and of the owners that the
other entries do not see.
-/
theorem pop {hold : Hold}
    (table : Table sb own skip disk inode (hold :: held)) {new : Inode}
    {own' : Owners} {skip' : Option Nat} {after : Disk}
    (ref : new.ref + 1 = (inode hold.slot).ref)
    (inum : new.inum = (inode hold.slot).inum)
    (keeps : 0 < new.ref → new.valid = (inode hold.slot).valid ∧
      new.copy = (inode hold.slot).copy)
    (others : ∀ jp, jp ≠ hold.slot → 0 < (inode jp).ref →
      (inode jp).valid = true → Loaded sb own' skip' after (inode jp))
    (sound : 0 < new.ref → new.valid = true →
      Loaded sb own' skip' after new) :
    Table sb own' skip' after (Function.update inode hold.slot new) held := by
  have counted : ∀ jp, (Function.update inode hold.slot new jp).ref =
      holdCount held jp := by
    intro jp
    have count := table.counted jp
    rw [holdCount_cons] at count
    rw [Function.update_apply]
    split
    · next same =>
      subst same
      simp only [if_true] at count
      omega
    · next apart => simpa [Ne.symm apart] using count
  constructor
  case counted => exact counted
  case unique =>
    intro jp kp
    have unique := table.unique jp kp
    grind
  case range =>
    intro jp
    have range := table.range jp
    grind
  case loaded =>
    intro jp
    rw [Function.update_apply]
    split
    · exact sound
    · next apart => exact others jp apart
  case holds =>
    intro other member
    have holds := table.holds other (List.mem_cons_of_mem _ member)
    have positive :
        0 < (Function.update inode hold.slot new other.slot).ref := by
      rw [counted]
      exact holdCount_pos member
    grind

end Table

/-! ## The file system -/

/--
What the functions of `fs.c` leave as it is, the history, and a condition on
the type and size of every disk inode.
-/
structure Frame where
  initial : Nat → BitVec 16
  history : List Event
  file : Nat → File
  proc : Nat → Proc
  shape : Nat → BitVec 16 → BitVec 32 → Prop

namespace Frame

/-- The permissions the history asks for. -/
def permissions (frame : Frame) (inum : Nat) : BitVec 16 :=
  lastPermissions frame.initial frame.history inum

/-- The condition on types and sizes allows freeing an inode. -/
def AllowsFree (frame : Frame) : Prop :=
  ∀ inum type size, frame.shape inum type size → frame.shape inum 0 0

/-- There is no condition on types and sizes. -/
def Unshaped (frame : Frame) : Prop :=
  ∀ inum type size, frame.shape inum type size

/-- Forget the condition on the type and size of one inode. -/
def relax (frame : Frame) (inum : Nat) : Frame :=
  { frame with
    shape := fun other type size =>
      other = inum ∨ frame.shape other type size }

/-- Record an event. -/
def record (frame : Frame) (event : Event) : Frame :=
  { frame with history := event :: frame.history }

theorem Unshaped.allowsFree {frame : Frame} (unshaped : frame.Unshaped) :
    frame.AllowsFree :=
  fun inum _ _ _ => unshaped inum 0 0

end Frame

/-- The invariant, with the owners and the references made explicit. -/
structure Good (k : Kernel) (frame : Frame) (own : Owners)
    (skip : Option Nat) (held : List Hold) (state : Fs) : Prop where
  image : Image k.sb own skip state.disk
  table : Table k.sb own skip state.disk state.inode held
  slots : ∀ hold ∈ held, hold.slot < k.ninode
  permissions : ∀ inum < k.sb.ninodes,
    (k.sb.dinode state.disk inum).permissions = frame.permissions inum
  shape : ∀ inum < k.sb.ninodes,
    frame.shape inum (k.sb.dinode state.disk inum).type
      (k.sb.dinode state.disk inum).size
  history : state.history = frame.history
  file : state.file = frame.file
  proc : state.proc = frame.proc

/-- The invariant of the file system while the references `held` exist. -/
def Inv (k : Kernel) (frame : Frame) (held : List Hold) (state : Fs) : Prop :=
  ∃ own, Good k frame own none held state

/-- The owners that a postcondition names may be forgotten. -/
theorem Inv.of_owners {k : Kernel} {frame : Frame} {held : List Hold}
    {state : Fs} {fact : Owners → Prop}
    (holds : ∃ own, Good k frame own none held state ∧ fact own) :
    Inv k frame held state := by
  rcases holds with ⟨own, good, _⟩
  exact ⟨own, good⟩

namespace Good

variable {k : Kernel} {frame : Frame} {own : Owners} {skip : Option Nat}
  {held : List Hold} {state : Fs}

theorem perm (good : Good k frame own skip held state)
    {other : List Hold} (same : held.Perm other) :
    Good k frame own skip other state :=
  { good with
    table := good.table.perm same
    slots := fun hold member => good.slots hold (same.mem_iff.mpr member) }

theorem relax (good : Good k frame own skip held state) (inum : Nat) :
    Good k (frame.relax inum) own skip held state :=
  { good with shape := fun other exists_ => .inr (good.shape other exists_) }

/-- The holder of an entry learns the type of the inode in it. -/
theorem note {ip inum : Nat} {loaded : Option (BitVec 16)}
    (good : Good k frame own skip (⟨ip, inum, loaded⟩ :: held) state)
    (valid : (state.inode ip).valid = true) :
    Good k frame own skip
      (⟨ip, inum, some (state.inode ip).copy.type⟩ :: held) state := by
  have holds := good.table.holds
  refine { good with table := { good.table with counted := ?_, holds := ?_ },
                     slots := ?_ }
  · intro jp
    simpa using good.table.counted jp
  · intro hold member
    rcases List.mem_cons.mp member with rfl | member
    · refine ⟨(holds _ List.mem_cons_self).1, ?_⟩
      rintro type ⟨⟩
      exact ⟨valid, rfl⟩
    · exact holds hold (List.mem_cons_of_mem _ member)
  · intro hold member
    rcases List.mem_cons.mp member with rfl | member
    · exact good.slots ⟨ip, inum, loaded⟩ List.mem_cons_self
    · exact good.slots hold (List.mem_cons_of_mem _ member)

/-- An entry in use is one of the table. -/
theorem slot_lt (good : Good k frame own skip held state) {ip : Nat}
    (used : 0 < (state.inode ip).ref) : ip < k.ninode := by
  rw [good.table.counted] at used
  have listed : ip ∈ held.map Hold.slot := List.count_pos_iff.mp used
  rcases List.mem_map.mp listed with ⟨hold, member, rfl⟩
  exact good.slots hold member

/-- A change of the disk that no disk inode shows. -/
theorem with_disk (good : Good k frame own skip held state) {disk : Disk}
    (image : Image k.sb own skip disk)
    (dinodes : ∀ inum < k.sb.ninodes,
      k.sb.dinode disk inum = k.sb.dinode state.disk inum) :
    Good k frame own skip held { state with disk := disk } where
  image := image
  table := good.table.of_dinodes dinodes
  slots := good.slots
  permissions inum exists_ := by
    rw [dinodes inum exists_]
    exact good.permissions inum exists_
  shape inum exists_ := by
    rw [dinodes inum exists_]
    exact good.shape inum exists_
  history := good.history
  file := good.file
  proc := good.proc

/-- A write to a block of the data area. -/
theorem write_data (good : Good k frame own skip held state) {block : Nat}
    {bytes : Bytes} (inside : k.sb.InData block)
    (image : Image k.sb own skip (Function.update state.disk block bytes)) :
    Good k frame own skip held (state.withBlock block bytes) := by
  apply good.with_disk image
  intro inum exists_
  exact k.sb.dinode_update_of_le bytes exists_
    (k.sb.bmapstart_lt_dataStart.le.trans inside.1)

/-- A change of the free map. -/
theorem write_map (good : Good k frame own skip held state) {block : Nat}
    {bytes : Bytes}
    (image : Image k.sb own skip
      (Function.update state.disk (k.sb.bblock block) bytes)) :
    Good k frame own skip held
      (state.withBlock (k.sb.bblock block) bytes) := by
  apply good.with_disk image
  intro inum exists_
  exact k.sb.dinode_update_of_le bytes exists_
    (k.sb.bmapstart_le_bblock block)

/-- A change of one entry of the table. -/
theorem with_inode (good : Good k frame own skip held state) {ip : Nat}
    {change : Inode → Inode} {held' : List Hold}
    (table : Table k.sb own skip state.disk
      (Function.update state.inode ip (change (state.inode ip))) held')
    (slots : ∀ hold ∈ held', hold.slot < k.ninode) :
    Good k frame own skip held' (state.withInode ip change) :=
  { good with table := table, slots := slots }

/-- Edit the copy in an entry, but not its type, size and permissions. -/
theorem edit (good : Good k frame own skip held state) {ip : Nat}
    {change : Dinode → Dinode}
    (agrees : Agrees (change (state.inode ip).copy) (state.inode ip).copy)
    (addrs : skip ≠ some (state.inode ip).inum → ∀ place,
      (change (state.inode ip).copy).addrs place ≠ 0 →
        (change (state.inode ip).copy).addrs place =
            (state.inode ip).copy.addrs place ∨
          own ((change (state.inode ip).copy).addrs place).toNat =
            some ((state.inode ip).inum, .addr place)) :
    Good k frame own skip held (state.withInode ip (Inode.edit change)) := by
  refine good.with_inode ?_ good.slots
  refine good.table.replace ?_ ?_ ?_ ?_
  · rfl
  · rfl
  · intro valid
    exact ⟨valid, agrees.type⟩
  · intro used valid
    have known := good.table.loaded ip used valid
    refine ⟨⟨agrees.type.trans known.agrees.type,
      agrees.size.trans known.agrees.size,
      agrees.permissions.trans known.agrees.permissions⟩, ?_, ?_⟩
    · show (change (state.inode ip).copy).type ≠ 0
      rw [agrees.type]
      exact known.live
    · intro unskipped place nonzero
      rcases addrs unskipped place nonzero with same | owned
      · have nonzero' : (state.inode ip).copy.addrs place ≠ 0 := same ▸ nonzero
        have owned := known.addrs unskipped place nonzero'
        exact same ▸ owned
      · exact owned

/-- A write of one disk inode, with the table that goes with it. -/
theorem put_dinode (good : Good k frame own skip held state) {inum : Nat}
    {bytes : Bytes} {dinode : Dinode} {inode : Nat → Inode}
    {frame' : Frame} {held' : List Hold}
    (written : ∀ other, k.sb.dinode
        (Function.update state.disk (k.sb.iblock inum) bytes) other =
      if other = inum then dinode else k.sb.dinode state.disk other)
    (image : Image k.sb own none
      (Function.update state.disk (k.sb.iblock inum) bytes))
    (table : Table k.sb own none
      (Function.update state.disk (k.sb.iblock inum) bytes) inode held')
    (slots : ∀ hold ∈ held', hold.slot < k.ninode)
    (permissions : dinode.permissions = frame'.permissions inum)
    (shape : frame'.shape inum dinode.type dinode.size)
    (otherPermissions : ∀ other, other ≠ inum →
      frame'.permissions other = frame.permissions other)
    (otherShapes : ∀ other type size, other ≠ inum →
      frame.shape other type size → frame'.shape other type size)
    (file : frame'.file = frame.file) (proc : frame'.proc = frame.proc) :
    Good k frame' own none held'
      { state with
        disk := Function.update state.disk (k.sb.iblock inum) bytes
        inode := inode
        history := frame'.history } where
  image := image
  table := table
  slots := slots
  permissions other inside := by
    rw [written]
    split
    · next same => rw [same, permissions]
    · next apart =>
      rw [otherPermissions other apart]
      exact good.permissions other inside
  shape other inside := by
    rw [written]
    split
    · next same => rw [same]; exact shape
    · next apart =>
      exact otherShapes other _ _ apart (good.shape other inside)
  history := rfl
  file := by rw [file]; exact good.file
  proc := by rw [proc]; exact good.proc

/-- `iupdate` writes an entry, possibly edited, back to disk. -/
theorem flush (good : Good k frame own skip held state)
    (change : Dinode → Dinode) (frame' : Frame) {ip inum : Nat}
    {type : BitVec 16} (member : ⟨ip, inum, some type⟩ ∈ held)
    (skipped : skip = none ∨ skip = some inum)
    (kind : (change (state.inode ip).copy).type =
      (state.inode ip).copy.type)
    (addrs : ∀ place, (change (state.inode ip).copy).addrs place ≠ 0 →
      own ((change (state.inode ip).copy).addrs place).toNat =
        some (inum, .addr place))
    (permissions : (change (state.inode ip).copy).permissions =
      frame'.permissions inum)
    (shape : frame'.shape inum type (change (state.inode ip).copy).size)
    (otherPermissions : ∀ other, other ≠ inum →
      frame'.permissions other = frame.permissions other)
    (otherShapes : ∀ other type size, other ≠ inum →
      frame.shape other type size → frame'.shape other type size)
    (file : frame'.file = frame.file) (proc : frame'.proc = frame.proc) :
    Good k frame' own none held
      { (state.withInode ip (Inode.edit change)).withBlock
          (k.sb.iblock inum)
          (writeDinode (state.disk (k.sb.iblock inum)) (inum % ipb)
            (change (state.inode ip).copy)) with
        history := frame'.history } := by
  have used := good.table.ref_pos member
  have exists_ := good.table.inum_lt member
  rcases good.table.loaded_of_hold member with ⟨number, valid, known, loaded⟩
  have written := k.sb.dinode_writeDinode state.disk inum
  refine good.put_dinode (fun other => written other _) ?_ ?_ good.slots
    permissions (kind.trans known ▸ shape) otherPermissions otherShapes file
    proc
  · refine good.image.put_dinode exists_ (fun other => written other _)
      skipped ?_ (fun _ => addrs)
    intro _ _ _
    rw [kind, loaded.agrees.type, number]
  · refine good.table.flush used ?_ ?_ ?_ ?_ ?_ ?_ ?_
    · rfl
    · rfl
    · exact fun _ => ⟨valid, kind⟩
    · intro other
      rw [number]
      exact written other _
    · rw [number]
      exact skipped
    · show (change (state.inode ip).copy).type ≠ 0
      rw [kind]
      exact loaded.live
    · rw [number]
      exact addrs

/-- `iupdate` of an entry whose permissions were not edited. -/
theorem write_back (good : Good k frame own skip held state)
    (change : Dinode → Dinode) {ip inum : Nat} {type : BitVec 16}
    (member : ⟨ip, inum, some type⟩ ∈ held)
    (skipped : skip = none ∨ skip = some inum)
    (kind : (change (state.inode ip).copy).type =
      (state.inode ip).copy.type)
    (addrs : ∀ place, (change (state.inode ip).copy).addrs place ≠ 0 →
      own ((change (state.inode ip).copy).addrs place).toNat =
        some (inum, .addr place))
    (permissions : (change (state.inode ip).copy).permissions =
      (state.inode ip).copy.permissions)
    (shape : frame.shape inum type (change (state.inode ip).copy).size) :
    Good k frame own none held
      ((state.withInode ip (Inode.edit change)).withBlock (k.sb.iblock inum)
        (writeDinode (state.disk (k.sb.iblock inum)) (inum % ipb)
          (change (state.inode ip).copy))) := by
  rcases good.table.loaded_of_hold member with ⟨number, _, _, loaded⟩
  have asked : (state.inode ip).copy.permissions = frame.permissions inum := by
    rw [loaded.agrees.permissions, number]
    exact good.permissions inum (good.table.inum_lt member)
  have flushed := good.flush change frame member skipped kind addrs
    (permissions.trans asked) shape (fun _ _ => rfl) (fun _ _ _ _ => id)
    rfl rfl
  rw [← good.history] at flushed
  exact flushed

/-- The blocks of an inode that is to be truncated are given up. -/
theorem release (good : Good k frame own none held state) (inum : Nat) :
    Good k frame (own.release inum) (some inum) held state where
  image := good.image.release inum
  table := by
    apply good.table.of_owners
    · intro block other place apart owned
      refine Owners.release_eq_some.mpr ⟨owned, ?_⟩
      rintro rfl
      exact apart rfl
    · simp
  slots := good.slots
  permissions := good.permissions
  shape := good.shape
  history := good.history
  file := good.file
  proc := good.proc

/-- A fresh block is given to a place of an inode in use. -/
theorem adopt (good : Good k frame own none held state)
    {ip inum block : Nat} {type : BitVec 16} (place : Place)
    (member : ⟨ip, inum, some type⟩ ∈ held)
    (fresh : Fresh k.sb own state.disk block) :
    Good k frame (Function.update own block (some (inum, place))) none held
      state := by
  rcases good.table.loaded_of_hold member with ⟨number, _, _, loaded⟩
  have live : (k.sb.dinode state.disk inum).type ≠ 0 := by
    rw [← number, ← loaded.agrees.type]
    exact loaded.live
  refine { good with
    image := good.image.adopt fresh (good.table.inum_lt member) live
    table := good.table.of_owners ?_ (fun _ unskipped => unskipped) }
  intro other owner place' _ owned
  rw [Function.update_of_ne, owned]
  rintro rfl
  simp [fresh.unowned] at owned

end Good

end OSCourse.FileSystem
