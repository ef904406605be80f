import OSCourse.FileSystem.FileContent
import OSCourse.FileSystem.OpenMode

/-!
# The contents of all files

At any time a file has one content, whether its inode is in the table or only
on disk, and whatever blocks hold it.  In every reachable state `readi` returns
a range of this content and changes no file, and `writei` overwrites a range of
one file and leaves all others as they are.  `sys_read` and `sys_write` inherit
this.
-/

namespace OSCourse.FileSystem

open OSCourse.Library
open OSCourse.Library.ByteBlock
open OSCourse.Library.Hoare
open OSCourse.Library.TransitionSystem

variable {k : Kernel} {frame : Frame} {own : Owners} {held : List Hold}

/-! ## Contents -/

/-- Entry `ip` of the table holds the inode `inum`. -/
def cached (state : Fs) (inum ip : Nat) : Bool :=
  decide (0 < (state.inode ip).ref) && (state.inode ip).valid &&
    decide ((state.inode ip).inum = inum)

/-- The inode `inum`: its copy in the table, or the disk inode. -/
def copyOf (k : Kernel) (state : Fs) (inum : Nat) : Dinode :=
  match (List.range k.ninode).find? (cached state inum) with
  | some ip => (state.inode ip).copy
  | none => k.sb.dinode state.disk inum

/-- How many bytes of a file `bmap` reaches. -/
def reachedSize (size : BitVec 32) : Nat := min size.toNat (maxfile * bsize)

/-- The content of the inode `inum`; `none` if it is free. -/
def content (k : Kernel) (state : Fs) (inum : Nat) : Option (List Byte) :=
  if (copyOf k state inum).type = 0 then none
  else some (slice (byteAt state.disk (copyOf k state inum)) 0
    (reachedSize (copyOf k state inum).size))

theorem cached_iff {state : Fs} {inum ip : Nat} :
    cached state inum ip = true ↔
      0 < (state.inode ip).ref ∧ (state.inode ip).valid = true ∧
        (state.inode ip).inum = inum := by
  simp [cached, and_assoc]

/-- An inode is what its entry says, or what is on disk if it has none. -/
theorem copyOf_cases (k : Kernel) (state : Fs) (inum : Nat) :
    (∃ ip, cached state inum ip = true ∧
      copyOf k state inum = (state.inode ip).copy) ∨
    ((∀ ip < k.ninode, cached state inum ip = false) ∧
      copyOf k state inum = k.sb.dinode state.disk inum) := by
  unfold copyOf
  split
  · next ip found => exact .inl ⟨ip, List.find?_some found, rfl⟩
  · next missing =>
    refine .inr ⟨fun ip inside => ?_, rfl⟩
    simpa using List.find?_eq_none.mp missing ip (List.mem_range.mpr inside)

/-- The copy of an inode depends on its entry and on the disk inode. -/
theorem copyOf_congr {before after : Fs} {inum : Nat}
    (same : ∀ ip, cached after inum ip = cached before inum ip)
    (copies : ∀ ip, cached before inum ip = true →
      (after.inode ip).copy = (before.inode ip).copy)
    (dinode : k.sb.dinode after.disk inum = k.sb.dinode before.disk inum) :
    copyOf k after inum = copyOf k before inum := by
  unfold copyOf
  rw [funext same]
  split
  · next ip found => exact copies ip (List.find?_some found)
  · exact dinode

/-- The contents depend on the disk and on the copies in the table. -/
theorem content_of_cached {before after : Fs}
    (disk : after.disk = before.disk)
    (same : ∀ inum ip, cached after inum ip = cached before inum ip)
    (copies : ∀ inum ip, cached before inum ip = true →
      (after.inode ip).copy = (before.inode ip).copy) :
    content k after = content k before := by
  funext inum
  have equal : copyOf k after inum = copyOf k before inum :=
    copyOf_congr (same inum) (copies inum) (by rw [disk])
  simp only [content, equal, disk]

/-- The disk and the inodes in the table are the same. -/
structure SameInodes (before after : Fs) : Prop where
  disk : after.disk = before.disk
  ref : ∀ ip, (after.inode ip).ref = (before.inode ip).ref
  valid : ∀ ip, (after.inode ip).valid = (before.inode ip).valid
  inum : ∀ ip, (after.inode ip).inum = (before.inode ip).inum
  copy : ∀ ip, (after.inode ip).copy = (before.inode ip).copy

theorem SameInodes.content {before after : Fs}
    (same : SameInodes before after) :
    content k after = content k before := by
  refine content_of_cached same.disk ?_ (fun _ ip _ => same.copy ip)
  intro inum ip
  simp only [cached, same.ref, same.valid, same.inum]

theorem sameInodes_locked (state : Fs) (ip : Nat) (locked : Bool) :
    SameInodes state
      (state.withInode ip fun inode => { inode with locked := locked }) := by
  constructor
  case disk => rfl
  all_goals
    intro jp
    simp only [Fs.withInode, Function.update_apply]
    split
    · next same => rw [same]
    · rfl

namespace Good

variable {state : Fs} {ip inum : Nat}

/-- The entry of an inode is the only one. -/
theorem copyOf_entry (good : Good k frame own none held state)
    (used : 0 < (state.inode ip).ref) (valid : (state.inode ip).valid = true) :
    copyOf k state (state.inode ip).inum = (state.inode ip).copy := by
  rcases copyOf_cases k state (state.inode ip).inum with
    ⟨jp, here, equal⟩ | ⟨missing, _⟩
  · rcases cached_iff.mp here with ⟨usedToo, _, number⟩
    rw [equal, good.table.unique jp ip usedToo used number]
  · have absent := missing ip (good.slot_lt used)
    rw [cached_iff.mpr ⟨used, valid, rfl⟩] at absent
    cases absent

/-- An inode whose entry was not read yet is the one on disk. -/
theorem copyOf_unread (good : Good k frame own none held state)
    (used : 0 < (state.inode ip).ref)
    (invalid : (state.inode ip).valid = false) :
    copyOf k state (state.inode ip).inum =
      k.sb.dinode state.disk (state.inode ip).inum := by
  rcases copyOf_cases k state (state.inode ip).inum with
    ⟨jp, here, _⟩ | ⟨_, equal⟩
  · rcases cached_iff.mp here with ⟨usedToo, valid, number⟩
    rw [good.table.unique jp ip usedToo used number, invalid] at valid
    cases valid
  · exact equal

/-- The blocks of every inode in use belong to it. -/
theorem owned_copyOf (good : Good k frame own none held state)
    (exists_ : inum < k.sb.ninodes) (live : (copyOf k state inum).type ≠ 0) :
    Owned own state.disk inum (copyOf k state inum) := by
  rcases copyOf_cases k state inum with ⟨jp, here, equal⟩ | ⟨_, equal⟩
  · rcases cached_iff.mp here with ⟨used, valid, number⟩
    have addrs := (good.table.loaded jp used valid).addrs (by simp)
    rw [equal, ← number]
    exact .of_addrs good.image addrs
  · rw [equal] at live ⊢
    exact .of_addrs good.image (good.image.addrs inum exists_ (by simp) live)

/-- The copy in the table has the type that the disk has. -/
theorem copyOf_type (good : Good k frame own none held state) (inum : Nat) :
    (copyOf k state inum).type = (k.sb.dinode state.disk inum).type := by
  rcases copyOf_cases k state inum with ⟨ip, here, equal⟩ | ⟨_, equal⟩
  · rcases cached_iff.mp here with ⟨used, valid, rfl⟩
    rw [equal, (good.table.loaded ip used valid).agrees.type]
  · rw [equal]

end Good

/-! ## Changes of one file -/

/-- Only the inode `inum` in entry `ip` and its blocks may differ. -/
structure OthersKept (k : Kernel) (own : Owners) (ip inum : Nat)
    (before after : Fs) : Prop where
  blocks : ∀ block owner, own block = some owner → owner.1 ≠ inum →
    after.disk block = before.disk block
  dinodes : ∀ other < k.sb.ninodes, other ≠ inum →
    k.sb.dinode after.disk other = k.sb.dinode before.disk other
  entries : ∀ jp, jp ≠ ip → after.inode jp = before.inode jp
  entry : (before.inode ip).inum = inum ∧ (after.inode ip).inum = inum

/-- The contents of the other files do not change. -/
theorem OthersKept.content {ip inum other : Nat} {before after : Fs}
    (kept : OthersKept k own ip inum before after)
    (good : Good k frame own none held before)
    (exists_ : other < k.sb.ninodes) (apart : other ≠ inum) :
    content k after other = content k before other := by
  have here : ∀ state : Fs, (state.inode ip).inum = inum →
      cached state other ip = false := by
    intro state number
    rw [Bool.eq_false_iff, ne_eq, cached_iff, number]
    exact fun known => apart known.2.2.symm
  have equal : copyOf k after other = copyOf k before other := by
    apply copyOf_congr
    · intro jp
      by_cases same : jp = ip
      · rw [same, here after kept.entry.2, here before kept.entry.1]
      · simp only [cached, kept.entries jp same]
    · intro jp known
      have same : jp ≠ ip := by
        rintro rfl
        rw [here before kept.entry.1] at known
        cases known
      rw [kept.entries jp same]
    · exact kept.dinodes other exists_ apart
  unfold FileSystem.content
  rw [equal]
  split
  · rfl
  · next live =>
    congr 1
    apply slice_congr
    intro place small
    refine (good.owned_copyOf exists_ live).byteAt_congr ?_ ?_
    · exact fun block _ owned => kept.blocks block _ owned apart
    · simp only [reachedSize] at small
      omega

/-- The content of a file whose inode is in the table. -/
theorem Good.content_entry {state : Fs} {ip inum : Nat} {type : BitVec 16}
    (good : Good k frame own none held state)
    (member : ⟨ip, inum, some type⟩ ∈ held) :
    copyOf k state inum = (state.inode ip).copy ∧
      content k state inum =
        some (slice (byteAt state.disk (state.inode ip).copy) 0
          (reachedSize (state.inode ip).copy.size)) := by
  rcases good.table.loaded_of_hold member with ⟨number, valid, _, loaded⟩
  have equal := good.copyOf_entry (good.table.ref_pos member) valid
  rw [number] at equal
  refine ⟨equal, ?_⟩
  rw [content, equal, if_neg loaded.live]

section Calls

variable {ip inum : Nat} {type : BitVec 16} {before : Fs} {reading : Prop}

/-- Reading an inode into its entry changes no content. -/
theorem Good.content_load {state : Fs} (good : Good k frame own none held state)
    (used : 0 < (state.inode ip).ref)
    (live : (k.sb.dinode state.disk (state.inode ip).inum).type ≠ 0)
    (unread : (state.inode ip).valid = false) :
    content k (state.withInode ip fun inode =>
        { inode with
          copy := k.sb.dinode state.disk (state.inode ip).inum
          valid := true }) =
      content k state := by
  have read := good.load used live unread
  have usedNow : 0 < ((state.withInode ip fun inode =>
      { inode with
        copy := k.sb.dinode state.disk (state.inode ip).inum
        valid := true }).inode ip).ref := by
    simpa [Fs.withInode] using used
  have entry := read.copyOf_entry usedNow (by simp [Fs.withInode])
  simp only [Fs.withInode, Function.update_self] at entry
  funext other
  have equal : copyOf k (state.withInode ip fun inode =>
      { inode with
        copy := k.sb.dinode state.disk (state.inode ip).inum
        valid := true }) other = copyOf k state other := by
    by_cases here : other = (state.inode ip).inum
    · subst here
      rw [good.copyOf_unread used unread]
      exact entry
    · have absent : cached state other ip = false := by
        simp [cached, unread]
      apply copyOf_congr
      · intro jp
        by_cases same : jp = ip
        · subst same
          rw [absent]
          simp [cached, Fs.withInode, Ne.symm here]
        · simp [cached, Fs.withInode, same]
      · intro jp known
        have same : jp ≠ ip := by
          rintro rfl
          rw [absent] at known
          cases known
        simp [Fs.withInode, same]
      · rfl
  simp only [content, equal]
  rfl

/-- `ilock` changes no content. -/
theorem ilock_content {loaded : Option (BitVec 16)}
    (good : Good k frame own none (⟨ip, inum, loaded⟩ :: held) before) :
    Triple (fun current => current = before) (ilock k ip)
      (fun _ state =>
        Good k frame own none
          (⟨ip, inum, some (state.inode ip).copy.type⟩ :: held) state ∧
        content k state = content k before) := by
  rintro current rfl result after run
  have locked := good.set_locked ip true
  have used := locked.table.ref_pos List.mem_cons_self
  have same := sameInodes_locked current ip true
  rcases bind_eq_ok.mp run with ⟨_, _, ⟨⟩, run⟩
  split at run
  · cases run
  · rcases bind_eq_ok.mp run with ⟨_, between, taken, run⟩
    rw [acquiresleep_run] at taken
    split at taken
    · cases taken
    · cases taken
      rcases bind_eq_ok.mp run with ⟨_, _, ⟨⟩, run⟩
      split at run
      · next valid =>
        cases run
        exact ⟨locked.note valid, same.content⟩
      · next invalid =>
        rcases bind_eq_ok.mp run with ⟨_, _, ⟨⟩, run⟩
        rcases bind_eq_ok.mp run with ⟨_, _, ⟨⟩, run⟩
        split at run
        · cases run
        · next live =>
          cases run
          have unread := by simpa using invalid
          have read := locked.load used live unread
          refine ⟨read.note (by simp [Fs.withInode]), ?_⟩
          rw [← same.content]
          exact locked.content_load used live unread


/-! ## Writing -/

/-- The bytes of a file are found through its addresses. -/
theorem byteAt_of_addrs {disk : Disk} {copy other : Dinode}
    (same : copy.addrs = other.addrs) :
    byteAt disk copy = byteAt disk other := by
  have blocks : ∀ bn, blockOf disk copy bn = blockOf disk other bn := by
    intro bn
    rw [blockOf, blockOf, same]
  funext off
  simp only [byteAt, blocks]

/-- A range that is overwritten, as a list. -/
theorem slice_overwrite {data source : Bytes} {off count length : Nat}
    (inside : off ≤ length) :
    slice (ByteBlock.overwrite data off count source) 0
        (max length (off + count)) =
      PosixFile.overwrite (slice data 0 length) off (slice source 0 count) := by
  have parts : max length (off + count) =
      off + (count + (length - (off + count))) := by omega
  rw [PosixFile.overwrite_of_le (by simpa using inside), parts,
    ← slice_append, ← slice_append, take_slice, Nat.min_eq_left inside,
    drop_slice, length_slice]
  congr 1
  · apply slice_congr
    intro place small
    rw [ByteBlock.overwrite, if_neg (by omega)]
  · congr 1
    · apply slice_congr
      intro place small
      rw [ByteBlock.overwrite, if_pos (by omega)]
      congr 1
      omega
    · apply slice_congr
      intro place small
      rw [ByteBlock.overwrite, if_neg (by omega)]
      congr 1
      omega

/-- Writing an inode back does not change which blocks are free. -/
theorem freeBlock_update_inode (disk : Disk) {inum : Nat} {bytes : Bytes}
    (exists_ : inum < k.sb.ninodes) :
    freeBlock k (Function.update disk (k.sb.iblock inum) bytes) =
      freeBlock k disk := by
  simp only [freeBlock, k.sb.marked_update_inode bytes exists_]

/-- `writei` refuses a write at `off` of `n` bytes. -/
def Refused (size off n : BitVec 32) : Prop :=
  size < off ∨ off + n < off ∨ maxfile * bsize < (off + n).toNat

/-- The bytes `data` now stand at `off` in the file `inum`, and no other file
changed. -/
structure Overwrote (k : Kernel) (inum off : Nat) (data : List Byte)
    (before after : Fs) : Prop where
  file : content k after inum =
    (content k before inum).map fun bytes => PosixFile.overwrite bytes off data
  others : ∀ other < k.sb.ninodes, other ≠ inum →
    content k after other = content k before other

/-- What `writei` does and returns. -/
inductive WriteResult (k : Kernel) (inum : Nat) (copyin : Nat → Bool)
    (source : Bytes) (off n : BitVec 32) (before : Fs) : Int → Fs → Prop where
  | refused {after : Fs}
      (refused : Refused (copyOf k before inum).size off n)
      (same : content k after = content k before) :
      WriteResult k inum copyin source off n before (-1) after
  | wrote {after : Fs} {count : Nat}
      (accepted : ¬ Refused (copyOf k before inum).size off n)
      (few : count ≤ n.toNat)
      (overwrote : Overwrote k inum off.toNat (slice source 0 count) before
        after)
      (stopped : count < n.toNat → EndsBlock off.toNat count ∧
        (freeBlock k after.disk = none ∨ ∃ place, copyin place = false)) :
      WriteResult k inum copyin source off n before count after

/-- The size that `writei` stores. -/
def Dinode.grown (last : Nat) (copy : Dinode) : Dinode :=
  if copy.size.toNat < last then { copy with size := BitVec.ofNat 32 last }
  else copy

theorem Dinode.grown_addrs (last : Nat) (copy : Dinode) :
    (copy.grown last).addrs = copy.addrs := by
  unfold Dinode.grown
  split <;> rfl

theorem reachedSize_le (size : BitVec 32) :
    reachedSize size ≤ maxfile * bsize :=
  Nat.min_le_right _ _

theorem reachedSize_grown {last : Nat} (copy : Dinode)
    (room : last ≤ maxfile * bsize) :
    reachedSize (copy.grown last).size = max (reachedSize copy.size) last := by
  have fits : last < 2 ^ 32 := Nat.lt_of_le_of_lt room (by decide)
  unfold Dinode.grown reachedSize
  split
  · rw [BitVec.toNat_ofNat, Nat.mod_eq_of_lt fits]
    omega
  · omega

/-- Only the file differs after its inode is written back. -/
theorem Edited.othersKept {now : Owners} {state : Fs} {data : Bytes}
    (edited : Edited k frame held ip inum before own reading data now state)
    (good : Good k frame own none held before)
    (member : ⟨ip, inum, some type⟩ ∈ held) (change : Dinode → Dinode)
    (dinode : Dinode) :
    OthersKept k own ip inum before
      ((state.withInode ip (Inode.edit change)).withBlock (k.sb.iblock inum)
        (writeDinode (state.disk (k.sb.iblock inum)) (inum % ipb)
          dinode)) := by
  have exists_ : inum < k.sb.ninodes := good.table.inum_lt member
  have number := (edited.good.table.loaded_of_hold member).1
  constructor
  case blocks =>
    intro block owner owned apart
    have above := (good.image.inData _ _ owned).1
    have below := k.sb.iblock_lt exists_
    have start := k.sb.bmapstart_lt_dataStart
    simp only [Fs.withBlock, Fs.withInode]
    rw [Function.update_of_ne (by omega)]
    exact edited.blocks block owner owned apart
  case dinodes =>
    intro other inside apart
    simp only [Fs.withBlock, Fs.withInode]
    rw [k.sb.dinode_writeDinode, if_neg apart]
    exact edited.dinodes other inside
  case entries =>
    intro jp apart
    simp only [Fs.withBlock, Fs.withInode, Function.update_of_ne apart]
    exact edited.entries jp apart
  case entry =>
    refine ⟨(good.table.loaded_of_hold member).1, ?_⟩
    simpa [Fs.withBlock, Fs.withInode, Inode.edit] using number

/-- A file is written back after its bytes were overwritten. -/
theorem Edited.store {now : Owners} {state : Fs} {source : Bytes}
    {off count : Nat}
    (edited : Edited k frame held ip inum before own reading
      (ByteBlock.overwrite (byteAt before.disk (before.inode ip).copy) off
        count source) now state)
    (good : Good k frame own none held before)
    (member : ⟨ip, inum, some type⟩ ∈ held) (unshaped : frame.Unshaped)
    (inside : off ≤ (before.inode ip).copy.size.toNat)
    (room : off + count ≤ maxfile * bsize) :
    ∃ after, iupdate k ip (state.withInode ip
        (Inode.edit (Dinode.grown (off + count)))) = .ok ((), after) ∧
      Inv k frame held after ∧
      Overwrote k inum off (slice source 0 count) before after ∧
      freeBlock k after.disk = freeBlock k state.disk := by
  rcases edited.good.table.loaded_of_hold member with
    ⟨number, _, _, loaded⟩
  have exists_ : inum < k.sb.ninodes := edited.good.table.inum_lt member
  have owned := edited.good.owned member
  rcases edited.entry with ⟨addrs, entry⟩
  have saved := edited.good.write_back (Dinode.grown (off + count)) member
    (.inl rfl) (by unfold Dinode.grown; split <;> rfl)
    (by rw [Dinode.grown_addrs]; exact owned.addrs)
    (by unfold Dinode.grown; split <;> rfl) (unshaped _ _ _)
  have below := k.sb.iblock_lt exists_
  have start := k.sb.bmapstart_lt_dataStart
  refine ⟨_, edit_iupdate_run k _ number, ⟨now, saved⟩, ⟨?_, ?_⟩, ?_⟩
  · rw [(saved.content_entry member).2, (good.content_entry member).2,
      Option.map_some, ← slice_overwrite (by
        simp only [reachedSize]
        omega)]
    simp only [Fs.withBlock, Fs.withInode, Inode.edit, Function.update_self]
    rw [reachedSize_grown _ room, entry]
    congr 1
    apply slice_congr
    intro place small
    have bound : place < maxfile * bsize :=
      Nat.lt_of_lt_of_le small (Nat.max_le.mpr ⟨reachedSize_le _, room⟩)
    rw [byteAt_of_addrs (Dinode.grown_addrs _ _), Nat.zero_add]
    have data := edited.data place bound
    rw [entry] at data owned
    rw [owned.byteAt_congr ?_ bound, data]
    intro block _ owner
    have above := (edited.good.image.inData _ _ owner).1
    exact Function.update_of_ne (by omega) _ _
  · exact fun other inside apart =>
      (edited.othersKept good member _ _).content good inside apart
  · exact freeBlock_update_inode _ exists_

/-- `writei` overwrites a range of one file, or refuses. -/
theorem writei_content (good : Good k frame own none held before)
    (member : ⟨ip, inum, some type⟩ ∈ held) (unshaped : frame.Unshaped)
    (copyin : Nat → Bool) (source : Bytes) (off n : BitVec 32)
    (safe : type = tDir → WritesEntry k.sb off.toNat n.toNat source) :
    Triple (fun current => current = before)
      (writei k ip copyin source off n)
      (fun result after => Inv k frame held after ∧
        WriteResult k inum copyin source off n before result after) := by
  have copy := (good.content_entry member).1
  refine Triple.bind (inodeAt_spec ip) (fun inode => ?_)
  apply Triple.ite
  · intro outside
    apply Triple.pure
    rintro _ ⟨rfl, rfl⟩
    refine ⟨⟨own, good⟩, .refused ?_ rfl⟩
    rw [copy]
    rcases outside with beyond | overflow
    · exact .inl beyond
    · exact .inr (.inl overflow)
  · intro inside
    apply Triple.ite
    · intro large
      apply Triple.pure
      rintro _ ⟨rfl, rfl⟩
      exact ⟨⟨own, good⟩, .refused (.inr (.inr large)) rfl⟩
    · intro small
      have looped :
          Triple
            (Rewritten k frame held ip inum before own False
              (byteAt before.disk (before.inode ip).copy))
            (writeLoop k ip copyin source n.toNat off.toNat n.toNat 0) _ :=
        writeLoop_edits member copyin source n.toNat off.toNat n.toNat 0 le_rfl
          (by simpa using safe)
      apply Triple.at_state
      rintro before ⟨rfl, rfl⟩
      refine Triple.bind (looped.strengthen ?_) ?_
      · rintro _ rfl
        exact ⟨own, .start good⟩
      · rintro ⟨last, tot⟩ state
          ⟨count, few, ⟨now, edited⟩, equal, stopped⟩ result after run
        cases equal
        have accepted :
            ¬ Refused (copyOf k before inum).size off n := by
          rw [copy]
          rintro (beyond | overflow | large)
          · exact inside (.inl beyond)
          · exact inside (.inr overflow)
          · exact small large
        simp only [not_or, BitVec.not_lt] at inside
        have low : off.toNat ≤ (before.inode ip).copy.size.toNat := inside.1
        have sum : (off + n).toNat = off.toNat + n.toNat := by
          have room : off.toNat ≤ (off + n).toNat := inside.2
          rw [BitVec.toNat_add] at room ⊢
          omega
        rw [sum] at small
        simp only [Nat.zero_add] at edited run stopped
        rcases edited.store good member unshaped low (by omega) with
          ⟨stored, written, inv, overwrote, free⟩
        rcases bind_eq_ok.mp run with ⟨_, _, ⟨⟩, run⟩
        rcases bind_eq_ok.mp run with ⟨_, _, updated, ⟨⟩⟩
        cases written.symm.trans updated
        rw [← free] at stopped
        exact ⟨inv, .wrote accepted few overwrote stopped⟩


/-! ## Reading -/

/-- Filling in missing blocks changes no content. -/
theorem Edited.content {now : Owners} {state : Fs}
    (edited : Edited k frame held ip inum before own reading
      (byteAt before.disk (before.inode ip).copy) now state)
    (good : Good k frame own none held before)
    (member : ⟨ip, inum, some type⟩ ∈ held) {other : Nat}
    (exists_ : other < k.sb.ninodes) :
    content k state other = content k before other := by
  have number := (good.table.loaded_of_hold member).1
  by_cases same : other = inum
  · subst same
    rcases edited.entry with ⟨addrs, entry⟩
    rw [(edited.good.content_entry member).2, (good.content_entry member).2]
    have size : (state.inode ip).copy.size = (before.inode ip).copy.size := by
      rw [entry]
    rw [size]
    congr 1
    apply slice_congr
    intro place small
    rw [Nat.zero_add]
    exact edited.data place (Nat.lt_of_lt_of_le small (reachedSize_le _))
  · have kept : OthersKept k own ip inum before state :=
      ⟨edited.blocks, fun other inside _ => edited.dinodes other inside,
        edited.entries, number,
        (edited.good.table.loaded_of_hold member).1⟩
    exact kept.content good exists_ same

/-- What `readi` returns for a request of `n` bytes at `off` of the file
`whole`. -/
inductive ReadResult (k : Kernel) (whole : List Byte) (copyout : Nat → Bool)
    (off n : BitVec 32) (after : Fs) : Option (List Byte) → Prop where
  | read {bytes : List Byte}
      (start : bytes <+: (whole.drop off.toNat).take n.toNat)
      (complete : bytes = (whole.drop off.toNat).take n.toNat ∨
        freeBlock k after.disk = none ∨ 2 ^ 32 ≤ off.toNat + n.toNat) :
      ReadResult k whole copyout off n after (some bytes)
  | failed (place : Nat) (fails : copyout place = false) :
      ReadResult k whole copyout off n after none

/-- What `readi` returns where it asks for no byte. -/
theorem ReadResult.outside {whole : List Byte} {size : Nat}
    {copyout : Nat → Bool} {off n : BitVec 32} {after : Fs}
    (short : whole.length ≤ size)
    (beyond : size < off.toNat ∨ 2 ^ 32 ≤ off.toNat + n.toNat) :
    ReadResult k whole copyout off n after (some []) := by
  refine .read List.nil_prefix ?_
  rcases beyond with beyond | overflow
  · left
    rw [List.drop_eq_nil_of_le (by omega), List.take_nil]
  · exact .inr (.inr overflow)

/-- What `readi` returns from the range that it reads. -/
theorem ReadOf.result {data : Bytes} {copyout : Nat → Bool} {size : BitVec 32}
    {off n : BitVec 32} {left : Nat} {result : Option (List Byte)} {after : Fs}
    (inside : off.toNat ≤ size.toNat)
    (range : left = min n.toNat (size.toNat - off.toNat))
    (read : ReadOf k data copyout off.toNat left [] result after) :
    ReadResult k (slice data 0 (reachedSize size)) copyout off n after
      result := by
  have asked : ((slice data 0 (reachedSize size)).drop off.toNat).take
      n.toNat = slice data off.toNat
        (min n.toNat (reachedSize size - off.toNat)) := by
    rw [drop_slice, take_slice, Nat.zero_add]
  rcases read with ⟨count, few, rfl, within, stopped⟩ | ⟨rfl, place, fails⟩
  · rw [List.nil_append]
    have fits : count ≤ min n.toNat (reachedSize size - off.toNat) := by
      simp only [reachedSize]
      omega
    refine .read ?_ ?_
    · rw [asked]
      exact slice_start data _ fits
    · rw [asked]
      by_cases short : count < left
      · exact .inr (.inl (stopped short))
      · left
        congr 1
        simp only [reachedSize] at fits ⊢
        omega
  · exact .failed place fails

/-- What a reader leaves: missing blocks of the file may be filled in. -/
def Read (k : Kernel) (frame : Frame) (held : List Hold) (ip inum : Nat)
    (before : Fs) (own : Owners) (state : Fs) : Prop :=
  Rewritten k frame held ip inum before own True
    (byteAt before.disk (before.inode ip).copy) state

/-- `readi` returns a range of one file. -/
theorem readi_read (good : Good k frame own none held before)
    (member : ⟨ip, inum, some type⟩ ∈ held) (copyout : Nat → Bool)
    (off n : BitVec 32) :
    Triple (fun current => current = before) (readi k ip copyout off n)
      (fun result after => Read k frame held ip inum before own after ∧
        ∃ whole, content k before inum = some whole ∧
          ReadResult k whole copyout off n after result) := by
  have whole := (good.content_entry member).2
  refine Triple.bind (inodeAt_spec ip) (fun inode => ?_)
  apply Triple.ite
  · intro outside
    apply Triple.pure
    rintro _ ⟨rfl, rfl⟩
    refine ⟨⟨own, .start good⟩, _, whole,
      .outside ((length_slice _ _ _).le.trans (Nat.min_le_left _ _)) ?_⟩
    rcases outside with beyond | overflow
    · exact .inl beyond
    · right
      have wraps : (off + n).toNat < off.toNat := overflow
      rw [BitVec.toNat_add] at wraps
      have bound := n.isLt
      have bound' := off.isLt
      omega
  · intro inside
    simp only [not_or, BitVec.not_lt] at inside
    apply Triple.at_state
    rintro before ⟨rfl, rfl⟩
    have low : off.toNat ≤ (before.inode ip).copy.size.toNat := inside.1
    have room : off.toNat ≤ (off + n).toNat := inside.2
    rw [BitVec.toNat_add] at room
    have read :
        Triple (Read k frame held ip inum before own)
          (readLoop k ip copyout _ off.toNat _ []) _ :=
      readLoop_reads member copyout
        (if (before.inode ip).copy.size < off + n then
          ((before.inode ip).copy.size - off).toNat else n.toNat)
        off.toNat _ [] le_rfl
    refine (read.strengthen ?_).weaken ?_
    · rintro _ rfl
      exact ⟨own, .start good⟩
    · rintro result after ⟨rewritten, returned⟩
      refine ⟨rewritten, _, whole, returned.result low ?_⟩
      have bound := n.isLt
      have bound' := off.isLt
      have sum : (off + n).toNat = off.toNat + n.toNat := by
        rw [BitVec.toNat_add]
        omega
      split
      · next beyond =>
        have high : (before.inode ip).copy.size.toNat < (off + n).toNat :=
          beyond
        rw [BitVec.toNat_sub_of_le inside.1]
        omega
      · next enough =>
        have high : (off + n).toNat ≤ (before.inode ip).copy.size.toNat :=
          BitVec.not_lt.mp enough
        omega

/-- `readi` changes no file. -/
theorem readi_content (good : Good k frame own none held before)
    (member : ⟨ip, inum, some type⟩ ∈ held) (copyout : Nat → Bool)
    (off n : BitVec 32) :
    Triple (fun current => current = before) (readi k ip copyout off n)
      (fun result after => Inv k frame held after ∧
        (∀ other < k.sb.ninodes,
          content k after other = content k before other) ∧
        ∃ whole, content k before inum = some whole ∧
          ReadResult k whole copyout off n after result) := by
  refine (readi_read good member copyout off n).weaken ?_
  rintro result after ⟨⟨now, edited⟩, returned⟩
  exact ⟨⟨now, edited.good⟩,
    fun other exists_ => edited.content good member exists_, returned⟩

end Calls

/-! ## In every reachable state -/

/-- The contents of all inodes. -/
abbrev Contents := Nat → Option (List Byte)

/-- Two contents agree on every inode of the disk. -/
def Agree (k : Kernel) (contents other : Contents) : Prop :=
  ∀ inum < k.sb.ninodes, other inum = contents inum

/-- Between calls an entry in use is held by a file or a process. -/
theorem Ready.hold {initial : Nat → BitVec 16} {state : Fs} {ip : Nat}
    (ready : Ready k initial state) (used : 0 < (state.inode ip).ref) :
    ∃ frame own held loaded, frame.Unshaped ∧
      Good k frame own none (⟨ip, (state.inode ip).inum, loaded⟩ :: held)
        state := by
  rcases ready with ⟨frame, held, _, unshaped, _, own, good⟩
  rcases good.table.exists_hold used with ⟨⟨ip, inum, loaded⟩, member, rfl⟩
  rcases List.append_of_mem member with ⟨front, back, equal⟩
  have order : (held.map Prod.snd).Perm
      (⟨ip, inum, loaded⟩ :: (front ++ back)) := by
    rw [equal]
    exact List.perm_middle
  have number : (state.inode ip).inum = inum :=
    (good.table.holds _ member).1
  refine ⟨frame, own, front ++ back, loaded, unshaped, ?_⟩
  rw [number]
  exact good.perm order

/--
In every reachable state `readi` of a locked inode returns the bytes of its
file that are asked for, all of them unless the disk is full or the request
wraps around; no file changes, although blocks may be allocated.
-/
theorem readi_returns {disk : Disk} {state locked after : Fs} {ip : Nat}
    {copyout : Nat → Bool} {off n : BitVec 32} {result : Option (List Byte)}
    (consistent : Consistent k.sb disk)
    (reached : (fileSystem k disk).Reachable state)
    (used : 0 < (state.inode ip).ref)
    (lock : ilock k ip state = .ok ((), locked))
    (run : readi k ip copyout off n locked = .ok (result, after)) :
    Agree k (content k state) (content k after) ∧
      ∃ whole, content k state (state.inode ip).inum = some whole ∧
        ReadResult k whole copyout off n after result := by
  rcases (ready_of_reachable consistent reached).hold used with
    ⟨frame, own, held, loaded, _, good⟩
  rcases ilock_content good _ rfl _ _ lock with ⟨taken, same⟩
  rcases readi_content taken List.mem_cons_self copyout off n _ rfl _ _ run
    with ⟨_, unchanged, whole, known, read⟩
  rw [same] at known unchanged
  exact ⟨unchanged, whole, known, read⟩

/--
In every reachable state `writei` to a locked inode, which for a directory is
one entry, refuses the request and changes no file, or overwrites the part of
the file at the offset and no other file.  It stores all bytes unless the disk
is full or a copy fails, and then it stops between two blocks.
-/
theorem writei_overwrites {disk : Disk} {state locked after : Fs} {ip : Nat}
    {copyin : Nat → Bool} {source : Bytes} {off n : BitVec 32} {result : Int}
    (consistent : Consistent k.sb disk)
    (reached : (fileSystem k disk).Reachable state)
    (used : 0 < (state.inode ip).ref)
    (lock : ilock k ip state = .ok ((), locked))
    (safe : (locked.inode ip).copy.type = tDir →
      WritesEntry k.sb off.toNat n.toNat source)
    (run : writei k ip copyin source off n locked = .ok (result, after)) :
    content k locked = content k state ∧
      (content k state (state.inode ip).inum).isSome = true ∧
      WriteResult k (state.inode ip).inum copyin source off n locked result
        after := by
  rcases (ready_of_reachable consistent reached).hold used with
    ⟨frame, own, held, loaded, unshaped, good⟩
  rcases ilock_content good _ rfl _ _ lock with ⟨taken, same⟩
  have known := (taken.content_entry List.mem_cons_self).2
  rw [same] at known
  rcases writei_content taken List.mem_cons_self unshaped copyin source off n
    safe _ rfl _ _ run with ⟨_, written⟩
  exact ⟨same, by rw [known]; rfl, written⟩

/-! ## Reading and writing open files -/

section Accesses

variable {holds : List Hold} {f inum : Nat} {type : BitVec 16}

/-- A program that leaves the contents alone keeps what is true of them. -/
theorem keeps_contents {α : Type} {program : FsM α} {post : α → Fs → Prop}
    (spec : Triple (Inv k frame held) program post)
    (same : ∀ state result after, Inv k frame held state →
      program state = .ok (result, after) → content k after = content k state)
    (known : Contents → Prop) :
    Triple (fun state => Inv k frame held state ∧ known (content k state))
      program (fun result state => post result state ∧
        known (content k state)) := by
  rintro state ⟨inv, holds⟩ result after run
  refine ⟨spec _ inv _ _ run, ?_⟩
  rw [same _ _ _ inv run]
  exact holds

theorem ilock_contents (known : Contents → Prop) (ip : Nat) :
    Triple
      (fun state => Inv k frame (⟨ip, inum, some type⟩ :: holds) state ∧
        known (content k state))
      (ilock k ip)
      (fun _ state => Inv k frame (⟨ip, inum, some type⟩ :: holds) state ∧
        known (content k state)) := by
  refine keeps_contents ilock_loaded ?_ known
  rintro state result after ⟨own, good⟩ run
  exact (ilock_content good _ rfl _ _ run).2

theorem iunlock_contents (known : Contents → Prop) (ip : Nat) :
    Triple (fun state => Inv k frame held state ∧ known (content k state))
      (iunlock ip)
      (fun _ state => Inv k frame held state ∧ known (content k state)) := by
  refine keeps_contents (iunlock_spec ip) ?_ known
  rintro state result after _ run
  rcases bind_eq_ok.mp run with ⟨_, _, ⟨⟩, run⟩
  split at run
  · cases run
  · cases run
    exact (sameInodes_locked state ip false).content

theorem setFile_contents (known : Contents → Prop) (f : Nat)
    (change : File → File) :
    Triple (fun state => Inv k frame held state ∧ known (content k state))
      (setFile f change)
      (fun _ state => Inv k (frame.withFile f (change (frame.file f))) held
        state ∧ known (content k state)) := by
  refine keeps_contents (setFile_spec f change) ?_ known
  rintro state result after _ ⟨⟩
  rfl

theorem fileAt_contents (known : Contents → Prop) (f : Nat) :
    Triple (fun state => Inv k frame held state ∧ known (content k state))
      (fileAt f)
      (fun file state =>
        (Inv k frame held state ∧ known (content k state)) ∧
          file = frame.file f) := by
  refine (keeps_contents (fileAt_spec f) ?_ known).weaken ?_
  · rintro state result after _ ⟨⟩
    rfl
  · exact fun _ _ holds => ⟨⟨holds.1.1, holds.2⟩, holds.1.2⟩

/-- A sequence of reads changes no content. -/
theorem readAccesses_content (base : Contents) (accesses : List Access)
    (frame : Frame) :
    Triple
      (fun state => Inv k frame (⟨(frame.file f).ip, inum, some type⟩ ::
        holds) state ∧ Agree k base (content k state))
      (readAccesses k f accesses)
      (fun _ state => Agree k base (content k state)) := by
  induction accesses generalizing frame with
  | nil => exact Triple.pure fun _ => And.right
  | cons access rest induction =>
      refine Triple.bind (fileAt_contents (Agree k base) f) (fun file => ?_)
      apply Triple.and_pre
      rintro rfl
      refine Triple.bind (ilock_contents (Agree k base) _) (fun _ => ?_)
      have read :
          Triple
            (fun state => Inv k frame (⟨(frame.file f).ip, inum, some type⟩ ::
              holds) state ∧ Agree k base (content k state))
            (readi k (frame.file f).ip access.copies access.off access.n)
            (fun _ state => Inv k frame (⟨(frame.file f).ip, inum,
              some type⟩ :: holds) state ∧
                Agree k base (content k state)) := by
        rintro state ⟨⟨own, good⟩, agree⟩ result after run
        rcases readi_content good List.mem_cons_self _ _ _ _ rfl _ _ run with
          ⟨inv, same, _⟩
        exact ⟨inv, fun other exists_ =>
          (same other exists_).trans (agree other exists_)⟩
      refine Triple.bind read (fun _ => ?_)
      refine Triple.bind (setFile_contents (Agree k base) f _) (fun _ => ?_)
      refine Triple.bind (iunlock_contents (Agree k base) _) (fun _ => ?_)
      have later := induction
        (frame.withFile f { frame.file f with off := access.next })
      simpa only [Frame.withFile, Function.update_self] using later

/-- What one write makes of the bytes of a file: it is refused, or stores a
first part of its bytes. -/
inductive Stored (access : Access) (bytes : List Byte) : List Byte → Prop where
  | refused (outside : bytes.length < access.off.toNat ∨
      maxfile * bsize < access.off.toNat + access.n.toNat) :
      Stored access bytes bytes
  | wrote {count : Nat} (few : count ≤ access.n.toNat)
      (inside : access.off.toNat ≤ bytes.length) :
      Stored access bytes (PosixFile.overwrite bytes access.off.toNat
        (slice access.source 0 count))

/-- What a sequence of writes makes of the bytes of a file. -/
inductive Overwritten : List Access → List Byte → List Byte → Prop where
  | done (bytes : List Byte) : Overwritten [] bytes bytes
  | step {access : Access} {rest : List Access} {first next last : List Byte}
      (stored : Stored access first next) (later : Overwritten rest next last) :
      Overwritten (access :: rest) first last

/-- The file `inum` has the content `bytes`, and the others are those of
`base`. -/
def Stands (k : Kernel) (base : Contents) (inum : Nat) (bytes : List Byte)
    (contents : Contents) : Prop :=
  contents inum = some bytes ∧
    ∀ other < k.sb.ninodes, other ≠ inum → contents other = base other

/-- One write to a file that stands. -/
theorem WriteResult.stored {base : Contents} {ip : Nat} {bytes : List Byte}
    {access : Access} {before after : Fs} {result : Int}
    (written : WriteResult k inum access.copies access.source access.off
      access.n before result after)
    (good : Good k frame own none (⟨ip, inum, some type⟩ :: holds) before)
    (stands : Stands k base inum bytes (content k before)) :
    ∃ next, Stored access bytes next ∧
      Stands k base inum next (content k after) := by
  rcases good.content_entry List.mem_cons_self with ⟨copy, whole⟩
  have length : bytes.length = reachedSize (copyOf k before inum).size := by
    have same := stands.1.symm.trans whole
    rw [Option.some.inj same, length_slice, copy]
  rw [reachedSize] at length
  have bound := access.n.isLt
  have bound' := access.off.isLt
  have large : maxfile * bsize < 2 ^ 32 := by decide
  cases written with
  | refused refused same =>
      refine ⟨bytes, .refused ?_, same ▸ stands⟩
      rcases refused with beyond | overflow | beyond
      · have above : (copyOf k before inum).size.toNat < access.off.toNat :=
          beyond
        left
        omega
      · have wraps : (access.off + access.n).toNat < access.off.toNat :=
          overflow
        rw [BitVec.toNat_add] at wraps
        right
        omega
      · rw [BitVec.toNat_add] at beyond
        right
        exact Nat.lt_of_lt_of_le beyond (Nat.mod_le _ _)
  | wrote accepted few overwrote _ =>
      refine ⟨_, .wrote few ?_, ?_, ?_⟩
      · simp only [Refused, not_or, BitVec.not_lt, Nat.not_lt] at accepted
        have low : access.off.toNat ≤ (copyOf k before inum).size.toNat :=
          accepted.1
        have room : access.off.toNat ≤ (access.off + access.n).toNat :=
          accepted.2.1
        have fits := accepted.2.2
        rw [BitVec.toNat_add] at room fits
        omega
      · rw [overwrote.file, stands.1]
        rfl
      · intro other exists_ apart
        rw [overwrote.others other exists_ apart]
        exact stands.2 other exists_ apart

/-- A sequence of writes overwrites one file. -/
theorem writeAccesses_content (base : Contents) (accesses : List Access)
    (frame : Frame) (bytes : List Byte) (unshaped : frame.Unshaped)
    (file : type ≠ tDir) :
    Triple
      (fun state => Inv k frame (⟨(frame.file f).ip, inum, some type⟩ ::
        holds) state ∧ Stands k base inum bytes (content k state))
      (writeAccesses k f accesses)
      (fun _ state => ∃ last, Overwritten accesses bytes last ∧
        Stands k base inum last (content k state)) := by
  induction accesses generalizing frame bytes with
  | nil => exact Triple.pure fun _ holds => ⟨bytes, .done bytes, holds.2⟩
  | cons access rest induction =>
      refine Triple.bind (fileAt_contents (Stands k base inum bytes) f)
        (fun file => ?_)
      apply Triple.and_pre
      rintro rfl
      refine Triple.bind (keeps_contents beginOp_spec
        (by rintro _ _ _ _ ⟨⟩; rfl) (Stands k base inum bytes)) (fun _ => ?_)
      refine Triple.bind (ilock_contents (Stands k base inum bytes) _)
        (fun _ => ?_)
      have written :
          Triple
            (fun state => Inv k frame (⟨(frame.file f).ip, inum, some type⟩ ::
              holds) state ∧ Stands k base inum bytes (content k state))
            (writei k (frame.file f).ip access.copies access.source access.off
              access.n)
            (fun _ state => ∃ next, (Inv k frame (⟨(frame.file f).ip, inum,
              some type⟩ :: holds) state ∧
                Stands k base inum next (content k state)) ∧
              Stored access bytes next) := by
        rintro state ⟨⟨own, good⟩, stands⟩ result after run
        rcases writei_content good List.mem_cons_self unshaped _ _ _ _
          (fun directory => absurd directory file) _ rfl _ _ run with
          ⟨inv, written⟩
        rcases written.stored good stands with ⟨next, stored, stands⟩
        exact ⟨next, ⟨inv, stands⟩, stored⟩
      refine Triple.bind written (fun _ => ?_)
      apply Triple.exists_pre
      intro next
      apply Triple.and_pre
      intro stored
      refine Triple.bind (setFile_contents (Stands k base inum next) f _)
        (fun _ => ?_)
      refine Triple.bind (iunlock_contents (Stands k base inum next) _)
        (fun _ => ?_)
      refine Triple.bind (keeps_contents endOp_spec
        (by rintro _ _ _ _ ⟨⟩; rfl) (Stands k base inum next)) (fun _ => ?_)
      have later := induction
        (frame.withFile f { frame.file f with off := access.next }) next
        (fun _ _ _ => unshaped _ _ _)
      simp only [Frame.withFile, Function.update_self] at later
      refine later.weaken ?_
      rintro _ state ⟨last, overwritten, stands⟩
      exact ⟨last, .step stored overwritten, stands⟩

end Accesses

variable {disk : Disk} {state next : Fs} {p : Nat} {fd : Int}
  {transfer : Transfer} {result : Int}

/-- The open file of a descriptor between calls, with its inode. -/
theorem Ready.descriptor {initial : Nat → BitVec 16} {f : Nat}
    (ready : Ready k initial state)
    (entry : (state.proc p).ofile fd.toNat = some f) :
    ∃ frame held type, frame.Unshaped ∧ frame.file = state.file ∧
      ((state.file f).writable = true → type ≠ tDir) ∧
      Inv k frame (⟨(frame.file f).ip, (state.inode (state.file f).ip).inum,
        some type⟩ :: held) state := by
  rcases ready with ⟨frame, held, _, unshaped, tables, own, good⟩
  rw [good.proc] at entry
  rcases tables.of_descriptor entry with
    ⟨inum, type, rest, _, order, notDirectory⟩
  have taken := good.perm (order.map Prod.snd)
  have number : (state.inode (frame.file f).ip).inum = inum :=
    (taken.table.holds _ List.mem_cons_self).1
  refine ⟨frame, rest.map Prod.snd, type, unshaped, good.file.symm, ?_, ?_⟩
  · rw [good.file]
    exact notDirectory
  · rw [good.file, number]
    exact ⟨own, taken⟩

/-- `argfd` reads the descriptors. -/
theorem argfd_returns {answer : Option Nat} {found : Fs}
    (run : argfd k p fd state = .ok (answer, found)) :
    found = state ∧
      ∀ f, answer = some f → (state.proc p).ofile fd.toNat = some f := by
  unfold argfd at run
  split at run
  · cases run
    exact ⟨rfl, nofun⟩
  · cases run
    exact ⟨rfl, fun f entry => entry⟩

/-- In every reachable state `sys_read` changes the content of no file. -/
theorem sysRead_changes_nothing (consistent : Consistent k.sb disk)
    (reached : (fileSystem k disk).Reachable state)
    (returned : sysRead k p fd transfer state = .ok (result, next)) :
    Agree k (content k state) (content k next) := by
  have ready := ready_of_reachable consistent reached
  rcases bind_eq_ok.mp returned with ⟨answer, found, looked, rest⟩
  rcases argfd_returns looked with ⟨rfl, entry⟩
  cases answer with
  | none =>
      cases rest
      exact fun _ _ => rfl
  | some f =>
      rcases ready.descriptor (entry f rfl) with
        ⟨frame, held, type, _, files, _, inv⟩
      rcases bind_eq_ok.mp rest with ⟨_, _, ⟨⟩, rest⟩
      split at rest
      · rcases bind_eq_ok.mp rest with ⟨_, read, accesses, ⟨⟩⟩
        exact readAccesses_content _ _ frame _ ⟨inv, fun _ _ => rfl⟩ _ _
          accesses
      · cases rest
        exact fun _ _ => rfl

/-- What `sys_write` does to the file of a descriptor. -/
structure FileWritten (k : Kernel) (accesses : List Access) (file : File)
    (state next : Fs) : Prop where
  writable : file.writable = true
  kind : file.type = .inode
  written : ∃ first last,
    content k state (state.inode file.ip).inum = some first ∧
      Overwritten accesses first last ∧
      Stands k (content k state) (state.inode file.ip).inum last
        (content k next)

/--
In every reachable state `sys_write` changes no file, or the one of its
descriptor, which is open for writing: its accesses overwrite the file in order,
each storing a first part of its bytes.  All other files keep their content.
-/
theorem sysWrite_overwrites (consistent : Consistent k.sb disk)
    (reached : (fileSystem k disk).Reachable state)
    (returned : sysWrite k p fd transfer state = .ok (result, next)) :
    content k next = content k state ∨
      ∃ f, (state.proc p).ofile fd.toNat = some f ∧
        FileWritten k transfer.accesses (state.file f) state next := by
  have ready := ready_of_reachable consistent reached
  rcases bind_eq_ok.mp returned with ⟨answer, found, looked, rest⟩
  rcases argfd_returns looked with ⟨rfl, entry⟩
  cases answer with
  | none =>
      cases rest
      exact .inl rfl
  | some f =>
      rcases ready.descriptor (entry f rfl) with
        ⟨frame, held, type, unshaped, files, notDirectory, inv⟩
      rcases bind_eq_ok.mp rest with ⟨_, _, ⟨⟩, rest⟩
      split at rest
      · next opened =>
        rcases bind_eq_ok.mp rest with ⟨_, written, accesses, ⟨⟩⟩
        rcases inv with ⟨own, good⟩
        have first := (good.content_entry List.mem_cons_self).2
        rcases writeAccesses_content (content k found) _ frame _ unshaped
          (notDirectory opened.1) _
          ⟨⟨own, good⟩, first, fun _ _ _ => rfl⟩ _ _ accesses with
          ⟨last, overwritten, stands⟩
        exact .inr ⟨f, entry f rfl, opened.1, opened.2, _, last, first,
          overwritten, stands⟩
      · cases rest
        exact .inl rfl

/-! ## On a small disk -/

/-- The current directory of process 0 is the root. -/
def rootHeld : Fs := smallRun (smallFile 5 5 0) [(0, .start)]

theorem rootHeld_reachable :
    (fileSystem smallKernel (smallDisk (smallFile 5 5 0))).Reachable
      rootHeld :=
  smallRun_reachable _ _

/-- The entry of the root directory is read. -/
theorem readi_returns_rootHeld :
    ∃ locked after result,
      ilock smallKernel 0 rootHeld = .ok ((), locked) ∧
      readi smallKernel 0 kernelMemory 0 16 locked = .ok (result, after) ∧
      Agree smallKernel (content smallKernel rootHeld)
        (content smallKernel after) ∧
      ∃ whole, content smallKernel rootHeld (rootHeld.inode 0).inum =
          some whole ∧
        ReadResult smallKernel whole kernelMemory 0 16 after result := by
  have returned : (do
      ilock smallKernel 0
      readi smallKernel 0 kernelMemory 0 16 : FsM _) rootHeld |>.isOk := by
    decide +kernel
  cases run : (do
      ilock smallKernel 0
      readi smallKernel 0 kernelMemory 0 16 : FsM _) rootHeld with
  | error stop =>
      rw [run] at returned
      cases returned
  | ok pair =>
      rcases bind_eq_ok.mp run with ⟨_, locked, lock, read⟩
      exact ⟨locked, _, _, lock, read,
        readi_returns smallDisk_consistent rootHeld_reachable
          (by decide +kernel) lock read⟩

/-- An entry is added to the root directory. -/
theorem writei_overwrites_rootHeld :
    ∃ locked after result,
      ilock smallKernel 0 rootHeld = .ok ((), locked) ∧
      writei smallKernel 0 kernelMemory (direntBytes [103] 2) 16 16 locked =
        .ok (result, after) ∧
      content smallKernel locked = content smallKernel rootHeld ∧
      (content smallKernel rootHeld (rootHeld.inode 0).inum).isSome = true ∧
      WriteResult smallKernel (rootHeld.inode 0).inum kernelMemory
        (direntBytes [103] 2) 16 16 locked result after := by
  have returned : (do
      ilock smallKernel 0
      writei smallKernel 0 kernelMemory (direntBytes [103] 2) 16 16 : FsM _)
        rootHeld |>.isOk := by
    decide +kernel
  cases run : (do
      ilock smallKernel 0
      writei smallKernel 0 kernelMemory (direntBytes [103] 2) 16 16 : FsM _)
        rootHeld with
  | error stop =>
      rw [run] at returned
      cases returned
  | ok pair =>
      rcases bind_eq_ok.mp run with ⟨_, locked, lock, write⟩
      exact ⟨locked, _, _, lock, write,
        writei_overwrites smallDisk_consistent rootHeld_reachable
          (by decide +kernel) lock
          (fun _ => .inr ⟨by decide, by decide, by decide +kernel⟩) write⟩

/-- Process 0 has the file `f` open for reading and writing. -/
def fileHeld : Fs :=
  smallRun (smallFile 5 5 0)
    [(0, .chmod (some [slash, 102]) 384),
      (0, .open (some [slash, 102]) oRdwr)]

/-- A write of two bytes. -/
def twoBytes : Transfer := ⟨[⟨1, 2, fun _ => true, fun _ => 97, 3⟩], 2⟩

theorem fileHeld_reachable :
    (fileSystem smallKernel (smallDisk (smallFile 5 5 0))).Reachable
      fileHeld :=
  smallRun_reachable _ _

theorem sysRead_changes_nothing_fileHeld :
    ∃ next, sysRead smallKernel 0 0 twoBytes fileHeld = .ok (2, next) ∧
      Agree smallKernel (content smallKernel fileHeld)
        (content smallKernel next) := by
  have returned :
      returnedValue (sysRead smallKernel 0 0 twoBytes fileHeld) = some 2 := by
    decide +kernel
  rcases ok_of_returnedValue returned with ⟨next, run⟩
  exact ⟨next, run, sysRead_changes_nothing smallDisk_consistent
    fileHeld_reachable run⟩

theorem sysWrite_overwrites_fileHeld :
    ∃ next, sysWrite smallKernel 0 0 twoBytes fileHeld = .ok (2, next) ∧
      (content smallKernel next = content smallKernel fileHeld ∨
        ∃ f, (fileHeld.proc 0).ofile (Int.toNat 0) = some f ∧
          FileWritten smallKernel twoBytes.accesses (fileHeld.file f) fileHeld
            next) := by
  have returned :
      returnedValue (sysWrite smallKernel 0 0 twoBytes fileHeld) = some 2 := by
    decide +kernel
  rcases ok_of_returnedValue returned with ⟨next, run⟩
  exact ⟨next, run, sysWrite_overwrites smallDisk_consistent
    fileHeld_reachable run⟩

end OSCourse.FileSystem
