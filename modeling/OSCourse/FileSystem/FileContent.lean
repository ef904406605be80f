import OSCourse.FileSystem.Content
import OSCourse.Library.PosixFile

/-!
# The bytes of a file

The content of an inode is a function from offsets to bytes: the addresses in
its copy and in its indirect block lead from an offset to a block, and a block
that is missing is one of zeros.  `bmap` fills in missing blocks and leaves this
function as it is, `writeLoop` overwrites a range of it, and `readLoop` returns
a range of it.  Nothing that belongs to another inode changes.
-/

namespace OSCourse.FileSystem

open OSCourse.Library.ByteBlock
open OSCourse.Library.Hoare

variable {k : Kernel} {frame : Frame} {own : Owners} {skip : Option Nat}
  {held : List Hold}

/-! ## From offsets to blocks -/

/-- The address of block `bn` of a file; zero if the block is missing. -/
def blockOf (disk : Disk) (copy : Dinode) (bn : Nat) : BitVec 32 :=
  if direct : bn < ndirect then copy.addrs (Fin.castSucc ⟨bn, direct⟩)
  else if copy.addrs (Fin.last ndirect) = 0 then 0
  else
    indirectEntry (disk (copy.addrs (Fin.last ndirect)).toNat) (bn - ndirect)

/-- The bytes of a file. -/
def byteAt (disk : Disk) (copy : Dinode) : Bytes := fun off =>
  if blockOf disk copy (off / bsize) = 0 then 0
  else disk (blockOf disk copy (off / bsize)).toNat (off % bsize)

/-- Where an inode refers to block `bn` of its file. -/
def placeOf (bn : Nat) : Place :=
  if direct : bn < ndirect then .addr (Fin.castSucc ⟨bn, direct⟩)
  else .entry (bn - ndirect)

theorem placeOf_ne_indirect (bn : Nat) : placeOf bn ≠ Place.indirect := by
  unfold placeOf Place.indirect
  split
  · next direct =>
    simp only [ne_eq, Place.addr.injEq, Fin.ext_iff, Fin.val_last,
      Fin.val_castSucc]
    omega
  · simp

theorem placeOf_injective : Function.Injective placeOf := by
  intro bn other same
  unfold placeOf at same
  split at same
  · split at same
    · simpa using same
    · cases same
  · split at same
    · cases same
    · simp only [Place.entry.injEq] at same
      omega

/-- The blocks that a copy of an inode names belong to the inode. -/
structure Owned (own : Owners) (disk : Disk) (inum : Nat) (copy : Dinode) :
    Prop where
  addrs : ∀ place, copy.addrs place ≠ 0 →
    own (copy.addrs place).toNat = some (inum, .addr place)
  entries : copy.addrs (Fin.last ndirect) ≠ 0 → ∀ place < nindirect,
    indirectEntry (disk (copy.addrs (Fin.last ndirect)).toNat) place ≠ 0 →
      own (indirectEntry (disk (copy.addrs (Fin.last ndirect)).toNat)
        place).toNat = some (inum, .entry place)

namespace Owned

variable {disk after : Disk} {inum bn off : Nat} {copy : Dinode}

theorem of_addrs (image : Image k.sb own skip disk)
    (addrs : ∀ place, copy.addrs place ≠ 0 →
      own (copy.addrs place).toNat = some (inum, .addr place)) :
    Owned own disk inum copy :=
  ⟨addrs, fun indirect => image.entries _ _ (addrs _ indirect)⟩

/-- Every block of the file has its place as owner. -/
theorem blockOf (owned : Owned own disk inum copy) (bound : bn < maxfile)
    (nonzero : blockOf disk copy bn ≠ 0) :
    own (FileSystem.blockOf disk copy bn).toNat =
      some (inum, placeOf bn) := by
  unfold FileSystem.blockOf placeOf at *
  split
  · next direct =>
    rw [dif_pos direct] at nonzero
    exact owned.addrs _ nonzero
  · next indirect =>
    rw [dif_neg indirect] at nonzero
    split
    · next missing => exact absurd (if_pos missing) nonzero
    · next found =>
      rw [if_neg found] at nonzero
      refine owned.entries found _ ?_ nonzero
      simp only [maxfile] at bound
      omega

/-- The blocks of a file depend on the indirect block only. -/
theorem blockOf_congr (owned : Owned own disk inum copy)
    (same : ∀ block, own block = some (inum, .indirect) →
      after block = disk block) (bn : Nat) :
    FileSystem.blockOf after copy bn = FileSystem.blockOf disk copy bn := by
  unfold FileSystem.blockOf
  split
  · rfl
  · split
    · rfl
    · next found => rw [same _ (owned.addrs _ found)]

/-- The bytes of a file lie in the blocks of its inode. -/
theorem byteAt_congr (owned : Owned own disk inum copy)
    (same : ∀ block place, own block = some (inum, place) →
      after block = disk block) (bound : off < maxfile * bsize) :
    byteAt after copy off = byteAt disk copy off := by
  have inside : off / bsize < maxfile :=
    Nat.div_lt_of_lt_mul (by rwa [Nat.mul_comm] at bound)
  unfold byteAt
  rw [owned.blockOf_congr (fun block => same block _)]
  split
  · rfl
  · next found => rw [same _ _ (owned.blockOf inside found)]

end Owned

/-- The holder of an inode that was read knows its blocks. -/
theorem Good.owned {state : Fs} {ip inum : Nat} {type : BitVec 16}
    (good : Good k frame own none held state)
    (member : ⟨ip, inum, some type⟩ ∈ held) :
    Owned own state.disk inum (state.inode ip).copy := by
  rcases good.table.loaded_of_hold member with ⟨number, _, _, loaded⟩
  have addrs := loaded.addrs (by simp)
  rw [number] at addrs
  exact .of_addrs good.image addrs

/-! ## Filling in missing blocks -/

section Growth

variable {disk : Disk} {copy : Dinode} {fresh : BitVec 32}

/-- The copy with another address. -/
def Dinode.withAddr (copy : Dinode) (place : Fin (ndirect + 1))
    (addr : BitVec 32) : Dinode :=
  { copy with addrs := Function.update copy.addrs place addr }

/-- A cleared block in place of a missing one does not show. -/
theorem byteAt_withAddr {place : Fin (ndirect + 1)}
    (missing : copy.addrs place = 0) (cleared : disk fresh.toNat = zeros) :
    byteAt disk (copy.withAddr place fresh) = byteAt disk copy := by
  have holes : ∀ index, indirectEntry (disk fresh.toNat) index = 0 := by
    intro index
    simp [indirectEntry, cleared]
  funext off
  unfold byteAt blockOf Dinode.withAddr
  by_cases direct : off / bsize < ndirect
  · simp only [dif_pos direct]
    by_cases here : Fin.castSucc ⟨off / bsize, direct⟩ = place
    · subst here
      simp only [Function.update_self, missing, cleared, zeros, if_true,
        ite_self]
    · simp only [Function.update_of_ne here]
  · simp only [dif_neg direct]
    by_cases here : Fin.last ndirect = place
    · subst here
      simp [missing, holes]
    · simp only [Function.update_of_ne here]

/-- An entry of the indirect block is one block of the file. -/
theorem blockOf_newEntry {index : Nat}
    (found : copy.addrs (Fin.last ndirect) ≠ 0) (bn : Nat) :
    blockOf
        (Function.update disk (copy.addrs (Fin.last ndirect)).toNat
          (store (disk (copy.addrs (Fin.last ndirect)).toNat) (4 * index) 4
            fresh.toNat)) copy bn =
      if ndirect ≤ bn ∧ bn - ndirect = index then fresh
      else blockOf disk copy bn := by
  unfold blockOf
  by_cases direct : bn < ndirect
  · rw [dif_pos direct, dif_pos direct, if_neg (by omega)]
  · rw [dif_neg direct, dif_neg direct, if_neg found, if_neg found,
      Function.update_self]
    have fits := fresh.isLt
    by_cases here : bn - ndirect = index
    · subst here
      rw [if_pos ⟨by omega, rfl⟩, indirectEntry,
        load_store_same _ _ _ _ (by simpa using fits)]
      simp
    · rw [if_neg (by omega), indirectEntry,
        load_store_outside _ _ (by omega), indirectEntry]

/-- A cleared block entered in the indirect block does not show. -/
theorem byteAt_newEntry {inum index off : Nat}
    (owned : Owned own disk inum copy)
    (missing : indirectEntry
      (disk (copy.addrs (Fin.last ndirect)).toNat) index = 0)
    (found : copy.addrs (Fin.last ndirect) ≠ 0)
    (cleared : disk fresh.toNat = zeros) (unowned : own fresh.toNat = none)
    (bound : off < maxfile * bsize) :
    byteAt (Function.update disk (copy.addrs (Fin.last ndirect)).toNat
        (store (disk (copy.addrs (Fin.last ndirect)).toNat) (4 * index) 4
          fresh.toNat)) copy off =
      byteAt disk copy off := by
  have apart : fresh.toNat ≠ (copy.addrs (Fin.last ndirect)).toNat := by
    intro same
    rw [same, owned.addrs _ found] at unowned
    cases unowned
  have inside : off / bsize < maxfile :=
    Nat.div_lt_of_lt_mul (by rwa [Nat.mul_comm] at bound)
  have data : blockOf disk copy (off / bsize) ≠ 0 →
      (blockOf disk copy (off / bsize)).toNat ≠
        (copy.addrs (Fin.last ndirect)).toNat := by
    intro nonzero same
    have owner := owned.blockOf inside nonzero
    rw [same, owned.addrs _ found] at owner
    exact placeOf_ne_indirect _
      (congrArg Prod.snd (Option.some.inj owner)).symm
  unfold byteAt
  rw [blockOf_newEntry found]
  split
  · next here =>
    have before : blockOf disk copy (off / bsize) = 0 := by
      rw [blockOf, dif_neg (by omega), if_neg found, here.2, missing]
    rw [if_pos before, Function.update_of_ne apart, cleared]
    exact ite_self _
  · split
    · rfl
    · next nonzero => rw [Function.update_of_ne (data nonzero)]

/-- The entry does not show in another copy of the inode either. -/
theorem byteAt_newEntry_shown {other : Dinode} {inum index off : Nat}
    (owned : Owned own disk inum copy) (shown : Owned own disk inum other)
    (missing : indirectEntry
      (disk (copy.addrs (Fin.last ndirect)).toNat) index = 0)
    (found : copy.addrs (Fin.last ndirect) ≠ 0)
    (cleared : disk fresh.toNat = zeros) (unowned : own fresh.toNat = none)
    (bound : off < maxfile * bsize) :
    byteAt (Function.update disk (copy.addrs (Fin.last ndirect)).toNat
        (store (disk (copy.addrs (Fin.last ndirect)).toNat) (4 * index) 4
          fresh.toNat)) other off =
      byteAt disk other off := by
  by_cases same : copy.addrs (Fin.last ndirect) =
      other.addrs (Fin.last ndirect)
  · rw [same] at missing found ⊢
    exact byteAt_newEntry shown missing found cleared unowned bound
  · have apart : (other.addrs (Fin.last ndirect)).toNat ≠
        (copy.addrs (Fin.last ndirect)).toNat :=
      fun equal => same (BitVec.eq_of_toNat_eq equal.symm)
    have inside : off / bsize < maxfile :=
      Nat.div_lt_of_lt_mul (by rwa [Nat.mul_comm] at bound)
    have mapped : blockOf
        (Function.update disk (copy.addrs (Fin.last ndirect)).toNat
          (store (disk (copy.addrs (Fin.last ndirect)).toNat) (4 * index) 4
            fresh.toNat)) other (off / bsize) =
          blockOf disk other (off / bsize) := by
      simp only [blockOf, Function.update_of_ne apart]
    unfold byteAt
    rw [mapped]
    split
    · rfl
    · next nonzero =>
      rw [Function.update_of_ne]
      intro equal
      have owner := shown.blockOf inside nonzero
      rw [equal, owned.addrs _ found] at owner
      exact placeOf_ne_indirect _
        (congrArg Prod.snd (Option.some.inj owner)).symm

end Growth

/-! ## Writing a block -/

/-- A write to one block of a file overwrites a range of its bytes. -/
theorem byteAt_write {disk : Disk} {copy : Dinode} {source : Bytes}
    {inum off count place : Nat} (owned : Owned own disk inum copy)
    (found : blockOf disk copy (off / bsize) ≠ 0)
    (inside : off / bsize < maxfile) (fits : count ≤ bsize - off % bsize)
    (bound : place < maxfile * bsize) :
    byteAt
        (Function.update disk (blockOf disk copy (off / bsize)).toNat
          (overwrite (disk (blockOf disk copy (off / bsize)).toNat)
            (off % bsize) count source)) copy place =
      overwrite (byteAt disk copy) off count source place := by
  have owner := owned.blockOf inside found
  have mapped : ∀ bn, blockOf
      (Function.update disk (blockOf disk copy (off / bsize)).toNat
        (overwrite (disk (blockOf disk copy (off / bsize)).toNat)
          (off % bsize) count source)) copy bn = blockOf disk copy bn := by
    refine owned.blockOf_congr fun block indirect => ?_
    rw [Function.update_of_ne]
    rintro rfl
    rw [owner] at indirect
    exact placeOf_ne_indirect _
      (congrArg Prod.snd (Option.some.inj indirect))
  have placeInside : place / bsize < maxfile :=
    Nat.div_lt_of_lt_mul (by rwa [Nat.mul_comm] at bound)
  simp only [byteAt, mapped]
  by_cases same : place / bsize = off / bsize
  · have range : (off % bsize ≤ place % bsize ∧
        place % bsize < off % bsize + count) ↔
          (off ≤ place ∧ place < off + count) := by
      have first := Nat.div_add_mod place bsize
      have second := Nat.div_add_mod off bsize
      rw [same] at first
      omega
    rw [same, if_neg found, Function.update_self]
    simp only [overwrite, range, byteAt, same, if_neg found]
    split
    · next covered =>
      have first := Nat.div_add_mod place bsize
      have second := Nat.div_add_mod off bsize
      rw [same] at first
      congr 1
      omega
    · rfl
  · have outside : ¬ (off ≤ place ∧ place < off + count) := by
      rintro ⟨low, high⟩
      apply same
      have small : off % bsize < bsize := Nat.mod_lt _ (by decide)
      have second := Nat.div_add_mod off bsize
      apply Nat.div_eq_of_lt_le
      · rw [Nat.mul_comm]
        omega
      · rw [Nat.succ_mul, Nat.mul_comm]
        omega
    rw [overwrite, if_neg outside, byteAt]
    split
    · rfl
    · next nonzero =>
      rw [Function.update_of_ne]
      intro equal
      have other := owned.blockOf placeInside nonzero
      rw [equal, owner] at other
      exact same (placeOf_injective
        (congrArg Prod.snd (Option.some.inj other))).symm

/-! ## Edits of one file -/

/-- Every copy of the inode, such as the one on disk, shows the bytes that it
showed before. -/
def Spared (own now : Owners) (inum : Nat) (before after : Disk) : Prop :=
  ∀ other, Owned own before inum other → Owned now after inum other ∧
    ∀ off < maxfile * bsize, byteAt after other off = byteAt before other off

namespace Spared

variable {now last : Owners} {inum : Nat} {before between after : Disk}

theorem refl (own : Owners) (inum : Nat) (disk : Disk) :
    Spared own own inum disk disk :=
  fun _ owned => ⟨owned, fun _ _ => rfl⟩

theorem trans (first : Spared own now inum before between)
    (second : Spared now last inum between after) :
    Spared own last inum before after := by
  intro other owned
  rcases first other owned with ⟨owned, same⟩
  rcases second other owned with ⟨owned, same'⟩
  exact ⟨owned, fun off bound => (same' off bound).trans (same off bound)⟩

theorem of_bytes (image : Image k.sb now skip after)
    (kept : ∀ block owner, own block = some owner → now block = some owner)
    (bytes : ∀ other, Owned own before inum other → ∀ off < maxfile * bsize,
      byteAt after other off = byteAt before other off) :
    Spared own now inum before after :=
  fun other owned => ⟨.of_addrs image fun place nonzero =>
    kept _ _ (owned.addrs place nonzero), bytes other owned⟩

end Spared

/--
Since the state `before` only the file in entry `ip` changed: some of its
missing blocks were filled in, and its bytes are now `data`.  If it is only
read, other copies of the inode are spared.
-/
structure Edited (k : Kernel) (frame : Frame) (held : List Hold)
    (ip inum : Nat) (before : Fs) (own : Owners) (reading : Prop)
    (data : Bytes) (now : Owners) (state : Fs) : Prop where
  good : Good k frame now none held state
  kept : ∀ block owner, own block = some owner → now block = some owner
  blocks : ∀ block owner, own block = some owner → owner.1 ≠ inum →
    state.disk block = before.disk block
  dinodes : ∀ other < k.sb.ninodes,
    k.sb.dinode state.disk other = k.sb.dinode before.disk other
  entries : ∀ jp, jp ≠ ip → state.inode jp = before.inode jp
  entry : ∃ addrs, state.inode ip =
    { before.inode ip with
      copy := { (before.inode ip).copy with addrs := addrs } }
  data : ∀ off < maxfile * bsize,
    byteAt state.disk (state.inode ip).copy off = data off
  spared : reading → Spared own now inum before.disk state.disk

/-- What `balloc` does, beyond what `balloc_spec` says. -/
theorem balloc_frame {state after : Fs} {addr : BitVec 32}
    (good : Good k frame own none held state)
    (run : balloc k state = .ok (addr, after)) :
    after.inode = state.inode ∧
      (∀ inum < k.sb.ninodes,
        k.sb.dinode after.disk inum = k.sb.dinode state.disk inum) ∧
      (addr = 0 → freeBlock k after.disk = none) := by
  rw [balloc_run] at run
  split at run
  · next full =>
    cases run
    exact ⟨rfl, fun _ _ => rfl, fun _ => full⟩
  · next block found =>
    cases run
    have inside : block < k.sb.size :=
      List.mem_range.mp (List.mem_of_find?_eq_some found)
    have free : k.sb.marked state.disk block = false := by
      simpa using List.find?_some found
    have data := (good.image.free_block inside free).1.1
    have above := k.sb.bmapstart_lt_dataStart
    refine ⟨rfl, fun inum exists_ => ?_, fun zero => ?_⟩
    · simp only [Fs.withBlock]
      rw [k.sb.dinode_update_of_le _ exists_ (by omega),
        k.sb.dinode_update_of_le _ exists_ (k.sb.bmapstart_le_bblock _)]
    · have fits := k.sb.sizeFits
      have number := congrArg BitVec.toNat zero
      rw [BitVec.toNat_ofNat, Nat.mod_eq_of_lt (by omega)] at number
      simp only [BitVec.ofNat_eq_ofNat, BitVec.toNat_ofNat,
        Nat.zero_mod] at number
      omega

section Edits

variable {ip inum : Nat} {type : BitVec 16} {before : Fs} {data : Bytes}
  {reading : Prop}

namespace Edited

variable {now : Owners} {state after : Fs}

/-- At first nothing has changed. -/
theorem start (good : Good k frame own none held before) :
    Edited k frame held ip inum before own reading
      (byteAt before.disk (before.inode ip).copy) own before where
  good := good
  kept _ _ owned := owned
  blocks _ _ _ _ := rfl
  dinodes _ _ := rfl
  entries _ _ := rfl
  entry := ⟨(before.inode ip).copy.addrs, rfl⟩
  data _ _ := rfl
  spared _ := .refl _ _ _

/-- A block that is allocated is not yet a block of the file. -/
theorem alloc
    (edited : Edited k frame held ip inum before own reading data now state)
    (member : ⟨ip, inum, some type⟩ ∈ held) :
    Triple (fun current => current = state) (balloc k)
      (fun addr after =>
        Edited k frame held ip inum before own reading data now after ∧
          after.inode = state.inode ∧
          (addr = 0 → freeBlock k after.disk = none) ∧
          (addr ≠ 0 → Fresh k.sb now after.disk addr.toNat) ∧
          ∀ block owner, now block = some owner →
            after.disk block = state.disk block) := by
  rintro current rfl addr after run
  rcases balloc_spec edited.good _ rfl _ _ run with ⟨good, fresh, same⟩
  rcases balloc_frame edited.good run with ⟨table, dinodes, full⟩
  refine ⟨⟨good, edited.kept, ?_, ?_, ?_, ?_, ?_, ?_⟩, table, full, fresh, same⟩
  · intro block owner owned apart
    rw [same block owner (edited.kept block owner owned)]
    exact edited.blocks block owner owned apart
  · intro other exists_
    rw [dinodes other exists_]
    exact edited.dinodes other exists_
  · rw [table]
    exact edited.entries
  · rw [table]
    exact edited.entry
  · intro off bound
    rw [table, (edited.good.owned member).byteAt_congr
      (fun block place => same block _) bound]
    exact edited.data off bound
  · exact fun reads => (edited.spared reads).trans
      (.of_bytes good.image (fun _ _ owned => owned) fun _ owned _ =>
        owned.byteAt_congr fun block place => same block _)

/-- The owners while a fresh block is adopted. -/
theorem kept_adopt {sb : Superblock} {disk : Disk} {block : Nat}
    (fresh : Fresh sb now disk block) (owner : Nat × Place) :
    ∀ other owner', now other = some owner' →
      Function.update now block (some owner) other = some owner' := by
  intro other owner' owned
  rw [Function.update_of_ne, owned]
  rintro rfl
  simp [fresh.unowned] at owned

/-- A fresh block becomes one of the addresses in the inode. -/
theorem withAddr
    (edited : Edited k frame held ip inum before own reading data now state)
    (member : ⟨ip, inum, some type⟩ ∈ held) {addr : BitVec 32}
    (place : Fin (ndirect + 1))
    (fresh : Fresh k.sb now state.disk addr.toNat)
    (missing : (state.inode ip).copy.addrs place = 0) :
    Edited k frame held ip inum before own reading data
      (Function.update now addr.toNat (some (inum, .addr place)))
      (state.withInode ip
        (Inode.edit fun copy => copy.withAddr place addr)) := by
  have number := (edited.good.table.loaded_of_hold member).1
  have kept := kept_adopt fresh (inum, .addr place)
  have good : Good k frame
      (Function.update now addr.toNat (some (inum, .addr place))) none held
      (state.withInode ip
        (Inode.edit fun copy => copy.withAddr place addr)) := by
    refine (edited.good.adopt (.addr place) member fresh).edit
      ⟨rfl, rfl, rfl⟩ ?_
    intro _ other _
    simp only [Dinode.withAddr, Function.update_apply]
    split
    · next same =>
      subst same
      simp [number]
    · exact .inl rfl
  refine ⟨good, fun block owner owned =>
    kept block owner (edited.kept block owner owned), edited.blocks,
    edited.dinodes, ?_, ?_, ?_, fun reads => (edited.spared reads).trans
      (.of_bytes good.image kept fun _ _ _ _ => rfl)⟩
  · intro jp apart
    simp only [Fs.withInode, Function.update_of_ne apart]
    exact edited.entries jp apart
  · rcases edited.entry with ⟨addrs, entry⟩
    simp only [Fs.withInode, Function.update_self, entry]
    exact ⟨_, rfl⟩
  · intro off bound
    simp only [Fs.withInode, Function.update_self, Inode.edit]
    rw [byteAt_withAddr missing fresh.cleared]
    exact edited.data off bound

/-- A fresh block becomes an entry of the indirect block. -/
theorem withEntry
    (edited : Edited k frame held ip inum before own reading data now state)
    (member : ⟨ip, inum, some type⟩ ∈ held) {addr : BitVec 32} {index : Nat}
    (found : (state.inode ip).copy.addrs (Fin.last ndirect) ≠ 0)
    (fresh : Fresh k.sb now state.disk addr.toNat) (bound : index < nindirect)
    (missing : indirectEntry (state.disk ((state.inode ip).copy.addrs
      (Fin.last ndirect)).toNat) index = 0) :
    Edited k frame held ip inum before own reading data
      (Function.update now addr.toNat (some (inum, .entry index)))
      (state.withBlock ((state.inode ip).copy.addrs (Fin.last ndirect)).toNat
        (store (state.disk ((state.inode ip).copy.addrs
          (Fin.last ndirect)).toNat) (4 * index) 4 addr.toNat)) := by
  have owned := edited.good.owned member
  have owner := owned.addrs _ found
  have inData := edited.good.image.inData _ _ owner
  have kept := kept_adopt fresh (inum, .entry index)
  have good := edited.good.adopt_entry member owner fresh bound addr.isLt
  refine ⟨good, fun block other owned' =>
    kept block other (edited.kept block other owned'), ?_, ?_,
    edited.entries, edited.entry, ?_, fun reads =>
      (edited.spared reads).trans (.of_bytes good.image kept
        fun _ shown _ => byteAt_newEntry_shown owned shown missing found
          fresh.cleared fresh.unowned)⟩
  · intro block other owned' apart
    have held := edited.kept block other owned'
    simp only [Fs.withBlock]
    rw [Function.update_of_ne]
    · exact edited.blocks block other owned' apart
    · rintro rfl
      rw [owner] at held
      cases held
      exact apart rfl
  · intro other exists_
    simp only [Fs.withBlock]
    rw [k.sb.dinode_update_of_le _ exists_
      (k.sb.bmapstart_lt_dataStart.le.trans inData.1)]
    exact edited.dinodes other exists_
  · intro off inside
    simp only [Fs.withBlock]
    rw [byteAt_newEntry owned missing found fresh.cleared fresh.unowned inside]
    exact edited.data off inside

end Edited

/-- The file in entry `ip` now has the bytes `data`. -/
def Rewritten (k : Kernel) (frame : Frame) (held : List Hold) (ip inum : Nat)
    (before : Fs) (own : Owners) (reading : Prop) (data : Bytes) (state : Fs) :
    Prop :=
  ∃ now, Edited k frame held ip inum before own reading data now state

/-- An address is found or filled in; otherwise the disk is full. -/
theorem allocAddr_edits (member : ⟨ip, inum, some type⟩ ∈ held)
    (place : Fin (ndirect + 1)) :
    Triple (Rewritten k frame held ip inum before own reading data)
      (allocAddr k ip place)
      (fun addr state =>
        Rewritten k frame held ip inum before own reading data state ∧
        (addr = 0 → freeBlock k state.disk = none) ∧
        (addr ≠ 0 → (state.inode ip).copy.addrs place = addr)) := by
  apply Triple.exists_pre
  intro now
  refine Triple.bind (inodeAt_spec ip) (fun inode => ?_)
  apply Triple.ite
  · intro missing
    apply Triple.at_state
    rintro state ⟨edited, rfl⟩
    refine Triple.bind (edited.alloc member) (fun addr => ?_)
    apply Triple.ite
    · rintro rfl
      apply Triple.pure
      rintro after ⟨edited, _, full, _⟩
      exact ⟨⟨now, edited⟩, full, fun nonzero => absurd rfl nonzero⟩
    · rintro nonzero after ⟨edited, table, _, fresh, _⟩ result last ⟨⟩
      rw [← table] at missing
      refine ⟨⟨_, edited.withAddr member place (fresh nonzero) missing⟩,
        fun zero => absurd zero nonzero, fun _ => ?_⟩
      simp [Fs.withInode, Inode.edit]
  · intro nonzero
    apply Triple.pure
    rintro state ⟨edited, rfl⟩
    exact ⟨⟨now, edited⟩, fun zero => absurd zero nonzero, fun _ => rfl⟩

/-- `bmap` returns the block of the file, or the disk is full. -/
theorem bmap_edits (member : ⟨ip, inum, some type⟩ ∈ held) (bn : Nat) :
    Triple (Rewritten k frame held ip inum before own reading data)
      (bmap k ip bn)
      (fun addr state =>
        Rewritten k frame held ip inum before own reading data state ∧
        bn < maxfile ∧
        (addr = 0 → freeBlock k state.disk = none) ∧
        (addr ≠ 0 → blockOf state.disk (state.inode ip).copy bn = addr)) := by
  unfold bmap
  split
  · next direct =>
    refine (allocAddr_edits member _).weaken ?_
    rintro addr state ⟨edited, full, found⟩
    refine ⟨edited, Nat.lt_add_right _ direct, full, fun nonzero => ?_⟩
    rw [blockOf, dif_pos direct]
    exact found nonzero
  · next indirect =>
    split
    · next bound =>
      have inside : bn < maxfile := by
        simp only [maxfile]
        omega
      refine Triple.bind (allocAddr_edits member _) (fun base => ?_)
      apply Triple.ite
      · intro zero
        apply Triple.pure
        rintro state ⟨edited, full, _⟩
        exact ⟨edited, inside, fun _ => full zero,
          fun nonzero => absurd rfl nonzero⟩
      · intro nonzero
        refine Triple.bind (bread_spec _) (fun bytes => ?_)
        apply Triple.at_state
        rintro state ⟨⟨⟨now, edited⟩, _, found⟩, rfl⟩
        obtain rfl := found nonzero
        apply Triple.ite
        · intro missing
          refine Triple.bind (edited.alloc member) (fun fresh => ?_)
          apply Triple.ite
          · intro zero
            apply Triple.pure
            rintro after ⟨edited, _, full, _⟩
            exact ⟨⟨now, edited⟩, inside, fun _ => full zero,
              fun nonzero => absurd rfl nonzero⟩
          · rintro present after ⟨grown, table, _, fresh_spec, same⟩ result
              last ⟨⟩
            have unchanged :=
              same _ _ ((edited.good.owned member).addrs _ nonzero)
            rw [← table] at nonzero missing unchanged
            rw [← table, ← unchanged]
            rw [← unchanged] at missing
            refine ⟨⟨_, grown.withEntry member nonzero (fresh_spec present)
              bound missing⟩, inside, fun zero => absurd zero present,
              fun _ => ?_⟩
            simp only [Fs.withBlock]
            rw [blockOf_newEntry nonzero, if_pos ⟨by omega, rfl⟩]
        · intro present
          apply Triple.pure
          rintro _ rfl
          refine ⟨⟨now, edited⟩, inside, fun zero => absurd zero present,
            fun _ => ?_⟩
          rw [blockOf, dif_neg indirect, if_neg nonzero]
    · exact Triple.throw

/-! ## Writing and reading a range -/

theorem chunk_le (off left : Nat) : chunk off left ≤ left :=
  Nat.min_le_left _ _

theorem chunk_fits (off left : Nat) :
    chunk off left ≤ bsize - off % bsize :=
  Nat.min_le_right _ _

theorem chunk_pos {left : Nat} (off : Nat) (more : left ≠ 0) :
    0 < chunk off left := by
  have small : off % bsize < bsize := Nat.mod_lt _ (by decide)
  simp only [chunk]
  omega

/-- A write to a directory stores one entry at an entry boundary. -/
def StoresEntry (sb : Superblock) (off count : Nat) (source : Bytes) : Prop :=
  16 ∣ off ∧ count = 16 ∧ load source 0 2 < sb.ninodes

/-- A range of one block is written. -/
theorem Edited.write {now : Owners} {state : Fs} {source : Bytes}
    {off count : Nat}
    (edited : Edited k frame held ip inum before own False data now state)
    (member : ⟨ip, inum, some type⟩ ∈ held)
    (found : blockOf state.disk (state.inode ip).copy (off / bsize) ≠ 0)
    (inside : off / bsize < maxfile) (fits : count ≤ bsize - off % bsize)
    (safe : type = tDir → StoresEntry k.sb off count source) :
    Edited k frame held ip inum before own False
      (overwrite data off count source) now
      (state.withBlock
        (blockOf state.disk (state.inode ip).copy (off / bsize)).toNat
        (overwrite (state.disk
          (blockOf state.disk (state.inode ip).copy (off / bsize)).toNat)
          (off % bsize) count source)) := by
  have owned := edited.good.owned member
  have owner := owned.blockOf inside found
  have inData := edited.good.image.inData _ _ owner
  have notIndirect := placeOf_ne_indirect (off / bsize)
  refine ⟨edited.good.write_data inData
    (edited.good.image.data_block inData ?_ ?_), edited.kept, ?_, ?_,
    edited.entries, edited.entry, ?_, False.elim⟩
  · intro other indirect
    rw [owner] at indirect
    exact absurd (congrArg Prod.snd (Option.some.inj indirect)) notIndirect
  · intro other place owner' _ directory
    rw [owner] at owner'
    cases owner'
    rcases edited.good.table.loaded_of_hold member with
      ⟨number, _, kind, loaded⟩
    have isDirectory : type = tDir := by
      rw [← kind, loaded.agrees.type, number]
      exact directory
    rcases safe isDirectory with ⟨aligned, whole, names⟩
    have block := edited.good.image.dirents _ _ _ owner notIndirect directory
    rw [whole]
    refine block.write_entry ?_ names
    simp only [bsize]
    omega
  · intro block other owned' apart
    have held := edited.kept block other owned'
    simp only [Fs.withBlock]
    rw [Function.update_of_ne]
    · exact edited.blocks block other owned' apart
    · rintro rfl
      rw [owner] at held
      cases held
      exact apart rfl
  · intro other exists_
    simp only [Fs.withBlock]
    rw [k.sb.dinode_update_of_le _ exists_
      (k.sb.bmapstart_lt_dataStart.le.trans inData.1)]
    exact edited.dinodes other exists_
  · intro place bound
    simp only [Fs.withBlock]
    rw [byteAt_write owned found inside fits bound]
    simp only [overwrite]
    split
    · rfl
    · exact edited.data place bound

/-- A write of `count` bytes at `off` ends at its start or with a block. -/
def EndsBlock (off count : Nat) : Prop := count = 0 ∨ bsize ∣ off + count

theorem EndsBlock.after_chunk {off left count : Nat}
    (ends : EndsBlock (off + chunk off left) count)
    (short : chunk off left + count < left) :
    EndsBlock off (chunk off left + count) := by
  right
  rcases ends with rfl | whole
  · have full : chunk off left = bsize - off % bsize := by
      simp only [chunk] at short ⊢
      omega
    have small : off % bsize < bsize := Nat.mod_lt _ (by decide)
    have sum := Nat.div_add_mod off bsize
    refine ⟨off / bsize + 1, ?_⟩
    rw [Nat.mul_add, full]
    omega
  · rwa [Nat.add_assoc] at whole

/-- What `writeLoop` leaves and returns: it stops early only between blocks, on
a full disk or a copy that fails. -/
def Wrote (k : Kernel) (frame : Frame) (held : List Hold) (ip inum : Nat)
    (before : Fs) (own : Owners) (data : Bytes) (copyin : Nat → Bool)
    (source : Bytes) (off left tot : Nat) (result : Nat × Nat) (state : Fs) :
    Prop :=
  ∃ count ≤ left,
    Rewritten k frame held ip inum before own False
      (overwrite data off count fun place => source (tot + place)) state ∧
    result = (off + count, tot + count) ∧
    (count < left → EndsBlock off count ∧
      (freeBlock k state.disk = none ∨ ∃ place, copyin place = false))

theorem Wrote.nothing {copyin : Nat → Bool} {source : Bytes}
    {off left tot : Nat} {state : Fs}
    (rewritten : Rewritten k frame held ip inum before own False data state)
    (stopped : 0 < left →
      freeBlock k state.disk = none ∨ ∃ place, copyin place = false) :
    Wrote k frame held ip inum before own data copyin source off left tot
      (off, tot) state :=
  ⟨0, Nat.zero_le _, by rwa [overwrite_nothing], rfl,
    fun short => ⟨.inl rfl, stopped short⟩⟩

/-- `writeLoop` overwrites a range of the file. -/
theorem writeLoop_edits (member : ⟨ip, inum, some type⟩ ∈ held)
    (copyin : Nat → Bool) (source : Bytes) (fuel off left tot : Nat)
    (enough : left ≤ fuel)
    (safe : type = tDir →
      WritesEntry k.sb off left fun place => source (tot + place)) :
    Triple (Rewritten k frame held ip inum before own False data)
      (writeLoop k ip copyin source fuel off left tot)
      (Wrote k frame held ip inum before own data copyin source off left
        tot) := by
  induction fuel generalizing off left tot data with
  | zero =>
      exact Triple.pure fun _ rewritten => .nothing rewritten (by omega)
  | succ fuel induction =>
      apply Triple.ite
      · intro done
        exact Triple.pure fun _ rewritten => .nothing rewritten (by omega)
      · intro remaining
        refine Triple.bind (bmap_edits member _) (fun addr => ?_)
        apply Triple.ite
        · intro zero
          exact Triple.pure fun _ mapped =>
            .nothing mapped.1 fun _ => .inl (mapped.2.2.1 zero)
        · intro nonzero
          refine Triple.bind (bread_spec _) (fun bytes => ?_)
          apply Triple.ite
          · intro _
            have positive := chunk_pos off remaining
            have below := chunk_le off left
            have entry : type = tDir → StoresEntry k.sb off (chunk off left)
                (fun place => source (tot + place)) := by
              intro directory
              rcases safe directory with empty | ⟨aligned, whole, names⟩
              · exact absurd empty remaining
              · refine ⟨aligned, ?_, names⟩
                simp only [chunk, bsize]
                omega
            have later := @induction
              (overwrite data off (chunk off left)
                fun place => source (tot + place))
              (off + chunk off left) (left - chunk off left)
              (tot + chunk off left) (by omega) (fun directory => by
                have whole := (entry directory).2.1
                rcases safe directory with empty | ⟨_, full, _⟩
                · exact absurd empty remaining
                · left
                  omega)
            refine Triple.bind (Triple.modify ?_)
              (fun _ => later.weaken ?_)
            · rintro state ⟨⟨⟨now, edited⟩, inside, _, found⟩, rfl⟩
              obtain rfl := found nonzero
              exact ⟨now, edited.write member nonzero inside
                (chunk_fits off left) entry⟩
            · rintro result state ⟨count, few, rewritten, rfl, stopped⟩
              refine ⟨chunk off left + count, by omega, ?_, ?_, ?_⟩
              · rw [← overwrite_overwrite]
                simpa only [Nat.add_assoc] using rewritten
              · simp only [Nat.add_assoc]
              · intro short
                rcases stopped (by omega) with ⟨ends, cause⟩
                exact ⟨ends.after_chunk short, cause⟩
          · intro failed
            exact Triple.pure fun _ mapped =>
              .nothing mapped.1.1 fun _ => .inr ⟨tot, by simpa using failed⟩

/-- Within one block the bytes of the file are those of the block. -/
theorem slice_block {disk : Disk} {copy : Dinode} {off count : Nat}
    (found : blockOf disk copy (off / bsize) ≠ 0)
    (fits : count ≤ bsize - off % bsize) :
    slice (disk (blockOf disk copy (off / bsize)).toNat) (off % bsize) count =
      slice (byteAt disk copy) off count := by
  apply slice_congr
  intro place small
  have low : off % bsize + place < bsize := by omega
  have whole := Nat.div_add_mod off bsize
  have block : (off + place) / bsize = off / bsize := by
    rw [← whole, Nat.add_assoc, Nat.mul_add_div (by decide),
      Nat.div_eq_of_lt low, Nat.mul_add_div (by decide),
      Nat.div_eq_of_lt (Nat.mod_lt _ (by decide))]
  have rest : (off + place) % bsize = off % bsize + place := by
    rw [← whole, Nat.add_assoc, Nat.mul_add_mod, Nat.mod_eq_of_lt low,
      Nat.mul_add_mod, Nat.mod_mod]
  rw [byteAt, block, if_neg found, rest]

/-- What `readLoop` returns: the bytes in a range that it leaves only if the
disk is full, or nothing if a copy fails. -/
def ReadOf (k : Kernel) (data : Bytes) (copyout : Nat → Bool)
    (off left : Nat) (done : List Byte) (result : Option (List Byte))
    (state : Fs) : Prop :=
  (∃ count ≤ left, result = some (done ++ slice data off count) ∧
    (count = 0 ∨ off + count ≤ maxfile * bsize) ∧
    (count < left → freeBlock k state.disk = none)) ∨
  (result = none ∧ ∃ place, copyout place = false)

theorem ReadOf.nothing {copyout : Nat → Bool} {off left : Nat}
    {done : List Byte} {state : Fs}
    (stopped : 0 < left → freeBlock k state.disk = none) :
    ReadOf k data copyout off left done (some done) state :=
  .inl ⟨0, Nat.zero_le _, by simp [slice], .inl rfl, stopped⟩

/-- `readLoop` returns a range of the file, and the bytes of the file stay. -/
theorem readLoop_reads (member : ⟨ip, inum, some type⟩ ∈ held)
    (copyout : Nat → Bool) (fuel off left : Nat) (done : List Byte)
    (enough : left ≤ fuel) :
    Triple (Rewritten k frame held ip inum before own reading data)
      (readLoop k ip copyout fuel off left done)
      (fun result state =>
        Rewritten k frame held ip inum before own reading data state ∧
          ReadOf k data copyout off left done result state) := by
  induction fuel generalizing off left done with
  | zero =>
      exact Triple.pure fun _ rewritten =>
        ⟨rewritten, .nothing (by omega)⟩
  | succ fuel induction =>
      apply Triple.ite
      · intro none
        exact Triple.pure fun _ rewritten =>
          ⟨rewritten, .nothing (by omega)⟩
      · intro remaining
        refine Triple.bind (bmap_edits member _) (fun addr => ?_)
        apply Triple.ite
        · intro zero
          exact Triple.pure fun _ mapped =>
            ⟨mapped.1, .nothing fun _ => mapped.2.2.1 zero⟩
        · intro nonzero
          refine Triple.bind (bread_spec _) (fun bytes => ?_)
          have positive := chunk_pos off remaining
          have below := chunk_le off left
          have fits := chunk_fits off left
          apply Triple.ite
          · intro _
            apply Triple.at_state
            rintro state ⟨⟨⟨now, edited⟩, inside, _, found⟩, rfl⟩
            obtain rfl := found nonzero
            have room : off + chunk off left ≤ maxfile * bsize := by
              have whole := Nat.div_add_mod off bsize
              have small : off % bsize < bsize := Nat.mod_lt _ (by decide)
              have blocks : bsize * (off / bsize + 1) ≤ bsize * maxfile :=
                Nat.mul_le_mul_left _ inside
              rw [Nat.mul_add, Nat.mul_comm bsize maxfile] at blocks
              omega
            have piece : (List.range (chunk off left)).map (fun place =>
                state.disk (blockOf state.disk (state.inode ip).copy
                  (off / bsize)).toNat (off % bsize + place)) =
                slice data off (chunk off left) := by
              refine (slice_block nonzero fits).trans ?_
              exact slice_congr fun place small =>
                edited.data _ (by omega)
            rw [piece]
            refine ((induction (off + chunk off left)
              (left - chunk off left) (done ++ slice data off
                (chunk off left)) (by omega)).strengthen ?_).weaken ?_
            · rintro _ rfl
              exact ⟨now, edited⟩
            · rintro result after ⟨rewritten, read⟩
              refine ⟨rewritten, ?_⟩
              rcases read with ⟨count, few, rfl, within, stopped⟩ | failed
              · refine .inl ⟨chunk off left + count, by omega, ?_, ?_, ?_⟩
                · rw [List.append_assoc, slice_append]
                · omega
                · exact fun short => stopped (by omega)
              · exact .inr failed
          · intro failed
            exact Triple.pure fun _ mapped =>
              ⟨mapped.1.1, .inr ⟨rfl, done.length, by simpa using failed⟩⟩

end Edits

end OSCourse.FileSystem
