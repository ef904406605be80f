import OSCourse.FileSystem.DirectoryContent

/-!
# The table writes through

An entry of the inode table can be given up at any time, since the inode on disk
shows the same bytes as its copy.  Reading keeps this, although it may fill in
blocks that only the copy names, and `iput` relies on it: a file whose entry is
given up keeps its content, or is freed if it has no links and no other
reference.
-/

namespace OSCourse.FileSystem

open OSCourse.Library.ByteBlock
open OSCourse.Library.Hoare

variable {k : Kernel} {frame : Frame} {own : Owners} {held : List Hold}

/-! ## What freeing an inode leaves alone -/

/-- Only the free map and the inode `inum` in entry `ip` may differ. -/
structure Confined (k : Kernel) (ip inum : Nat) (before after : Fs) : Prop where
  data : ∀ block, k.sb.dataStart ≤ block →
    after.disk block = before.disk block
  dinodes : ∀ other < k.sb.ninodes, other ≠ inum →
    k.sb.dinode after.disk other = k.sb.dinode before.disk other
  entries : ∀ jp, jp ≠ ip → after.inode jp = before.inode jp
  number : (before.inode ip).inum = inum ∧ (after.inode ip).inum = inum

namespace Confined

variable {ip inum : Nat} {before state : Fs}

theorem start (number : (before.inode ip).inum = inum) :
    Confined k ip inum before before :=
  ⟨fun _ _ => rfl, fun _ _ _ => rfl, fun _ _ => rfl, number, number⟩

theorem othersKept (confined : Confined k ip inum before state)
    (good : Good k frame own none held before) :
    OthersKept k own ip inum before state where
  blocks block owner owned _ :=
    confined.data block (good.image.inData block owner owned).1
  dinodes := confined.dinodes
  entries := confined.entries
  entry := confined.number

/-- A block of the free map is written. -/
theorem write_map (confined : Confined k ip inum before state) {block : Nat}
    (inside : block < k.sb.size) (bytes : Bytes) :
    Confined k ip inum before
      (state.withBlock (k.sb.bblock block) bytes) := by
  have below := k.sb.bblock_lt inside
  refine ⟨fun other data => ?_, fun other exists_ apart => ?_,
    confined.entries, confined.number⟩
  · simp only [Fs.withBlock]
    rw [Function.update_of_ne (by omega)]
    exact confined.data other data
  · simp only [Fs.withBlock]
    rw [k.sb.dinode_update_of_le _ exists_ (k.sb.bmapstart_le_bblock _)]
    exact confined.dinodes other exists_ apart

/-- The entry changes, but not its number. -/
theorem edit (confined : Confined k ip inum before state)
    {change : Inode → Inode} (kept : (change (state.inode ip)).inum = inum) :
    Confined k ip inum before (state.withInode ip change) := by
  refine ⟨confined.data, confined.dinodes, fun jp apart => ?_,
    confined.number.1, ?_⟩
  · simp only [Fs.withInode, Function.update_of_ne apart]
    exact confined.entries jp apart
  · simpa [Fs.withInode] using kept

/-- The inode is written to disk. -/
theorem put (confined : Confined k ip inum before state)
    (exists_ : inum < k.sb.ninodes) (dinode : Dinode) :
    Confined k ip inum before
      (state.withBlock (k.sb.iblock inum)
        (writeDinode (state.disk (k.sb.iblock inum)) (inum % ipb)
          dinode)) := by
  have below := k.sb.iblock_lt exists_
  have start := k.sb.bmapstart_lt_dataStart
  refine ⟨fun other data => ?_, fun other inside apart => ?_,
    confined.entries, confined.number⟩
  · simp only [Fs.withBlock]
    rw [Function.update_of_ne (by omega)]
    exact confined.data other data
  · simp only [Fs.withBlock]
    rw [k.sb.dinode_writeDinode, if_neg apart]
    exact confined.dinodes other inside apart

end Confined

/-- The state in which `itrunc` frees the blocks of an inode: the addresses that
are left are numbers of blocks. -/
structure Trimming (k : Kernel) (ip inum : Nat) (before state : Fs) : Prop where
  confined : Confined k ip inum before state
  bounded : ∀ place, (state.inode ip).copy.addrs place ≠ 0 →
    ((state.inode ip).copy.addrs place).toNat < k.sb.size
  indirect : (state.inode ip).copy.addrs (Fin.last ndirect) =
    (before.inode ip).copy.addrs (Fin.last ndirect)

section Truncation

variable {ip inum : Nat} {before : Fs}

/-- `bfree` writes the free map only. -/
theorem bfree_confined {block : Nat} (inside : block < k.sb.size)
    (table : Nat → Inode) :
    Triple
      (fun state => Confined k ip inum before state ∧ state.inode = table)
      (bfree k block)
      (fun _ state => Confined k ip inum before state ∧
        state.inode = table) := by
  rintro state ⟨confined, rfl⟩ result after run
  rw [bfree_run] at run
  split at run
  · cases run
    exact ⟨confined.write_map inside _, rfl⟩
  · cases run

theorem truncDirect_confined (places : List (Fin ndirect)) :
    Triple (Trimming k ip inum before) (truncDirect k ip places)
      (fun _ => Trimming k ip inum before) := by
  induction places with
  | nil => exact Triple.keep _
  | cons place rest induction =>
      refine Triple.bind (inodeAt_spec ip) (fun inode => ?_)
      apply Triple.ite
      · exact fun _ => induction.strengthen fun _ holds => holds.1
      · intro nonzero
        apply Triple.at_state
        rintro state ⟨trimming, rfl⟩
        have freed :
            Triple
              (fun current => Confined k ip inum before current ∧
                current.inode = state.inode) (bfree k _) _ :=
          bfree_confined (trimming.bounded _ nonzero) state.inode
        refine Triple.bind (freed.strengthen ?_) (fun _ => ?_)
        · rintro _ rfl
          exact ⟨trimming.confined, rfl⟩
        refine Triple.bind (Triple.modify ?_) (fun _ => induction)
        rintro after ⟨confined, table⟩
        refine ⟨confined.edit confined.number.2, ?_, ?_⟩
        · intro other
          simp only [Fs.withInode, Function.update_self, Inode.edit, table]
          by_cases same : other = place.castSucc
          · simp [same]
          · rw [Function.update_of_ne same]
            exact trimming.bounded other
        · simp only [Fs.withInode, Function.update_self, Inode.edit, table]
          rw [Function.update_of_ne (Fin.castSucc_lt_last place).ne']
          exact trimming.indirect

theorem truncEntries_confined {bytes : Bytes} (table : Nat → Inode)
    (places : List Nat)
    (bounded : ∀ place ∈ places, indirectEntry bytes place ≠ 0 →
      (indirectEntry bytes place).toNat < k.sb.size) :
    Triple
      (fun state => Confined k ip inum before state ∧ state.inode = table)
      (truncEntries k bytes places)
      (fun _ state => Confined k ip inum before state ∧
        state.inode = table) := by
  induction places with
  | nil => exact Triple.keep _
  | cons place rest induction =>
      have later := induction
        (fun other member => bounded other (List.mem_cons_of_mem _ member))
      apply Triple.ite
      · exact fun _ => later
      · intro nonzero
        exact Triple.bind
          (bfree_confined (bounded place List.mem_cons_self nonzero) table)
          (fun _ => later)

/-- `itrunc` changes the free map and the inode only. -/
theorem itrunc_confined {type : BitVec 16}
    (good : Good k frame own none held before)
    (member : ⟨ip, inum, some type⟩ ∈ held) :
    Triple (fun current => current = before) (itrunc k ip)
      (fun _ => Confined k ip inum before) := by
  have number := (good.table.loaded_of_hold member).1
  have exists_ := good.table.inum_lt member
  have owned := good.owned member
  have start : Trimming k ip inum before before :=
    ⟨.start number, fun place nonzero =>
      (good.image.inData _ _ (owned.addrs place nonzero)).2, rfl⟩
  have direct :
      Triple (fun current => current = before)
        (truncDirect k ip (List.finRange ndirect))
        (fun _ => Trimming k ip inum before) :=
    (truncDirect_confined _).strengthen (by rintro _ rfl; exact start)
  refine Triple.bind direct (fun _ => ?_)
  have indirect :
      Triple (Trimming k ip inum before) (truncIndirect k ip)
        (fun _ => Confined k ip inum before) := by
    refine Triple.bind (inodeAt_spec ip) (fun inode => ?_)
    apply Triple.ite
    · exact fun _ => Triple.pure fun _ holds => holds.1.confined
    · intro nonzero
      apply Triple.at_state
      rintro state ⟨trimming, rfl⟩
      refine Triple.bind (bread_spec _) (fun bytes => ?_)
      apply Triple.at_state
      rintro current ⟨rfl, rfl⟩
      have found := trimming.indirect ▸ nonzero
      have same := trimming.confined.data _
        (good.image.inData _ _ (owned.addrs _ found)).1
      rw [← trimming.indirect] at same
      have entries :
          Triple
            (fun later => Confined k ip inum before later ∧
              later.inode = current.inode)
            (truncEntries k (current.disk ((current.inode ip).copy.addrs
              (Fin.last ndirect)).toNat) (List.range nindirect))
            (fun _ later => Confined k ip inum before later ∧
              later.inode = current.inode) := by
        refine truncEntries_confined current.inode _ ?_
        intro place inside present
        rw [same, trimming.indirect] at present ⊢
        exact (good.image.inData _ _ (owned.entries found place
          (List.mem_range.mp inside) present)).2
      refine Triple.bind (entries.strengthen ?_) (fun _ => ?_)
      · rintro _ rfl
        exact ⟨trimming.confined, rfl⟩
      refine Triple.bind
        (bfree_confined (trimming.bounded _ nonzero) current.inode)
        (fun _ => ?_)
      exact Triple.modify fun _ holds => holds.1.edit holds.1.number.2
  refine Triple.bind indirect (fun _ => ?_)
  rintro state confined result after run
  rcases bind_eq_ok.mp run with ⟨_, edited, ⟨⟩, run⟩
  rw [edit_iupdate_run k _ confined.number.2] at run
  cases run
  exact (confined.edit confined.number.2).put exists_ _

end Truncation

/-! ## Copies and the inodes on disk -/

/-- The inode on disk shows the bytes that the copy in the table shows. -/
def Saved (k : Kernel) (state : Fs) (ip : Nat) : Prop :=
  ∀ off < maxfile * bsize,
    byteAt state.disk (k.sb.dinode state.disk (state.inode ip).inum) off =
      byteAt state.disk (state.inode ip).copy off

/-- The inodes on disk have the numbers of links in `links`. -/
def Linked (k : Kernel) (links : Nat → BitVec 16) (state : Fs) : Prop :=
  ∀ inum < k.sb.ninodes, (k.sb.dinode state.disk inum).type ≠ 0 →
    (k.sb.dinode state.disk inum).nlink = links inum

/-- Every entry that was read is saved, links included, or is also held from
outside. -/
structure Backed (k : Kernel) (outside : List Hold) (links : Nat → BitVec 16)
    (state : Fs) : Prop where
  entries : ∀ ip, 0 < (state.inode ip).ref → (state.inode ip).valid = true →
    (∃ hold ∈ outside, hold.slot = ip) ∨
      Saved k state ip ∧
        (state.inode ip).copy.nlink = links (state.inode ip).inum
  linked : Linked k links state

/-- The entries that were read are the same, and so is the disk. -/
structure SameCopies (before after : Fs) : Prop where
  disk : after.disk = before.disk
  entries : ∀ ip, 0 < (after.inode ip).ref → (after.inode ip).valid = true →
    0 < (before.inode ip).ref ∧ (before.inode ip).valid = true ∧
      (after.inode ip).inum = (before.inode ip).inum ∧
      (after.inode ip).copy = (before.inode ip).copy

/-- An entry changes, but not what was read into it. -/
theorem sameCopies_withInode {ip : Nat} {state : Fs} {change : Inode → Inode}
    (entry : 0 < (change (state.inode ip)).ref →
      (change (state.inode ip)).valid = true →
        0 < (state.inode ip).ref ∧ (state.inode ip).valid = true ∧
          (change (state.inode ip)).inum = (state.inode ip).inum ∧
          (change (state.inode ip)).copy = (state.inode ip).copy) :
    SameCopies state (state.withInode ip change) := by
  refine ⟨rfl, fun jp used valid => ?_⟩
  by_cases same : jp = ip
  · subst same
    simp only [Fs.withInode, Function.update_self] at used valid ⊢
    exact entry used valid
  · simp only [Fs.withInode, Function.update_of_ne same] at used valid
    exact ⟨used, valid, by simp [Fs.withInode, same],
      by simp [Fs.withInode, same]⟩

theorem Backed.of_same {outside : List Hold} {links : Nat → BitVec 16}
    {before after : Fs} (backed : Backed k outside links before)
    (same : SameCopies before after) : Backed k outside links after := by
  constructor
  case entries =>
    intro ip used valid
    rcases same.entries ip used valid with ⟨used, valid, number, copy⟩
    rcases backed.entries ip used valid with known | ⟨saved, linked⟩
    · exact .inl known
    · refine .inr ⟨fun off bound => ?_, ?_⟩
      · rw [same.disk, number, copy]
        exact saved off bound
      · rw [number, copy]
        exact linked
  case linked =>
    intro inum exists_
    rw [same.disk]
    exact backed.linked inum exists_

namespace Good

variable {state : Fs} {ip inum : Nat}

/-- The blocks of a disk inode in use belong to it. -/
theorem owned_dinode (good : Good k frame own none held state)
    (exists_ : inum < k.sb.ninodes)
    (live : (k.sb.dinode state.disk inum).type ≠ 0) :
    Owned own state.disk inum (k.sb.dinode state.disk inum) :=
  .of_addrs good.image (good.image.addrs inum exists_ (by simp) live)

/-- The copy of an entry that was read, and the inode on disk. -/
theorem owned_both (good : Good k frame own none held state)
    (used : 0 < (state.inode ip).ref) (valid : (state.inode ip).valid = true) :
    Owned own state.disk (state.inode ip).inum (state.inode ip).copy ∧
      Owned own state.disk (state.inode ip).inum
        (k.sb.dinode state.disk (state.inode ip).inum) := by
  have loaded := good.table.loaded ip used valid
  refine ⟨.of_addrs good.image (loaded.addrs (by simp)),
    good.owned_dinode (good.table.range ip used) ?_⟩
  rw [← loaded.agrees.type]
  exact loaded.live

end Good

/-- The entries of other inodes stay saved. -/
theorem OthersKept.saved {ip inum jp : Nat} {before after : Fs}
    (kept : OthersKept k own ip inum before after)
    (good : Good k frame own none held before) (apart : jp ≠ ip)
    (other : (before.inode jp).inum ≠ inum)
    (used : 0 < (before.inode jp).ref)
    (valid : (before.inode jp).valid = true) (saved : Saved k before jp) :
    Saved k after jp := by
  rcases good.owned_both used valid with ⟨copy, dinode⟩
  have blocks : ∀ block place,
      own block = some ((before.inode jp).inum, place) →
        after.disk block = before.disk block :=
    fun block place owned => kept.blocks block _ owned other
  intro off bound
  rw [kept.entries jp apart,
    kept.dinodes _ (good.table.range jp used) other,
    dinode.byteAt_congr blocks bound, copy.byteAt_congr blocks bound]
  exact saved off bound

/-- A change of one file keeps the other entries backed. -/
theorem OthersKept.backed {outside : List Hold} {links : Nat → BitVec 16}
    {ip inum : Nat} {before after : Fs}
    (kept : OthersKept k own ip inum before after)
    (good : Good k frame own none held before)
    (used : 0 < (before.inode ip).ref) (backed : Backed k outside links before)
    (changed : 0 < (after.inode ip).ref → (after.inode ip).valid = true →
      (∃ hold ∈ outside, hold.slot = ip) ∨
        Saved k after ip ∧ (after.inode ip).copy.nlink = links inum)
    (here : (k.sb.dinode after.disk inum).type ≠ 0 →
      (k.sb.dinode after.disk inum).nlink = links inum) :
    Backed k outside links after := by
  constructor
  case entries =>
    intro jp used' valid
    by_cases same : jp = ip
    · subst same
      rw [kept.entry.2]
      exact changed used' valid
    · rw [kept.entries jp same] at used' valid ⊢
      have other : (before.inode jp).inum ≠ inum := by
        intro number
        exact same (good.table.unique jp ip used' used
          (number.trans kept.entry.1.symm))
      rcases backed.entries jp used' valid with known | ⟨saved, linked⟩
      · exact .inl known
      · exact .inr ⟨kept.saved good same other used' valid saved, linked⟩
  case linked =>
    intro other exists_
    by_cases same : other = inum
    · subst same
      exact here
    · rw [kept.dinodes other exists_ same]
      exact backed.linked other exists_

/-! ## Reading -/

section Reading

variable {ip inum : Nat} {type : BitVec 16} {before : Fs}
  {outside : List Hold} {links : Nat → BitVec 16}

/-- A file that is read stays saved. -/
theorem Edited.saved {now : Owners} {state : Fs}
    (edited : Edited k frame held ip inum before own True
      (byteAt before.disk (before.inode ip).copy) now state)
    (good : Good k frame own none held before)
    (member : ⟨ip, inum, some type⟩ ∈ held) (saved : Saved k before ip) :
    Saved k state ip := by
  rcases good.table.loaded_of_hold member with ⟨number, valid, _, _⟩
  have exists_ := good.table.inum_lt member
  have dinode := (good.owned_both (good.table.ref_pos member) valid).2
  rw [number] at dinode
  have later := (edited.good.table.loaded_of_hold member).1
  intro off bound
  have shown := saved off bound
  rw [number] at shown
  rw [later, edited.dinodes inum exists_, edited.data off bound, ← shown]
  exact (edited.spared trivial _ dinode).2 off bound

/-- Reading a file keeps the table backed. -/
theorem Read.backed {state : Fs}
    (read : Read k frame held ip inum before own state)
    (good : Good k frame own none held before)
    (member : ⟨ip, inum, some type⟩ ∈ held)
    (backed : Backed k outside links before) :
    Backed k outside links state := by
  rcases read with ⟨now, edited⟩
  rcases good.table.loaded_of_hold member with ⟨number, valid, _, _⟩
  have used := good.table.ref_pos member
  have exists_ := good.table.inum_lt member
  have kept : OthersKept k own ip inum before state :=
    ⟨edited.blocks, fun other inside _ => edited.dinodes other inside,
      edited.entries, number, (edited.good.table.loaded_of_hold member).1⟩
  refine kept.backed good used backed (fun _ _ => ?_) ?_
  · rcases backed.entries ip used valid with known | ⟨saved, linked⟩
    · exact .inl known
    · refine .inr ⟨edited.saved good member saved, ?_⟩
      rcases edited.entry with ⟨addrs, entry⟩
      rw [entry, ← number]
      exact linked
  · rw [edited.dinodes inum exists_]
    exact backed.linked inum exists_

/-- `readDirent` keeps the table backed. -/
theorem readDirent_backed (member : ⟨ip, inum, some type⟩ ∈ held) (off : Nat)
    (message : String) :
    Triple (fun state => Inv k frame held state ∧ Backed k outside links state)
      (readDirent k ip off message)
      (fun _ state =>
        Inv k frame held state ∧ Backed k outside links state) := by
  rintro state ⟨⟨own, good⟩, backed⟩ entry after run
  rcases bind_eq_ok.mp run with ⟨answer, between, read, run⟩
  rcases readi_read good member _ _ _ _ rfl _ _ read with ⟨read, _⟩
  have finished : between = after := by
    cases answer with
    | none => cases run
    | some bytes =>
        dsimp only at run
        split at run
        · cases run
          rfl
        · cases run
  rw [← finished]
  refine ⟨?_, read.backed good member backed⟩
  rcases read with ⟨now, edited⟩
  exact ⟨now, edited.good⟩

/-- A new reference is to an entry that was used, or not read yet. -/
theorem iget_same {number ip : Nat} {state after : Fs}
    (run : iget k number state = .ok (ip, after)) :
    SameCopies state after := by
  rw [iget_run] at run
  split at run
  · next ip found =>
    cases run
    have test := List.find?_some found
    simp only [Bool.and_eq_true, decide_eq_true_eq] at test
    exact sameCopies_withInode fun _ valid => ⟨test.1, valid, rfl, rfl⟩
  · split at run
    · cases run
    · next ip found =>
      cases run
      exact sameCopies_withInode fun _ invalid => nomatch invalid

theorem lookupLoop_backed (member : ⟨ip, inum, some type⟩ ∈ held)
    (name : Name) (left off : Nat) :
    Triple (fun state => Inv k frame held state ∧ Backed k outside links state)
      (lookupLoop k ip name left off)
      (fun _ state => Backed k outside links state) := by
  induction left generalizing off with
  | zero => exact Triple.pure fun _ holds => holds.2
  | succ left induction =>
      refine Triple.bind (readDirent_backed member off _) (fun entry => ?_)
      apply Triple.ite
      · exact fun _ => induction _
      · intro _
        apply Triple.ite
        · rintro _ state ⟨_, backed⟩ result after run
          rcases bind_eq_ok.mp run with ⟨jp, between, got, ⟨⟩⟩
          exact backed.of_same (iget_same got)
        · exact fun _ => induction _

/-- `dirlookup` keeps the table backed. -/
theorem dirlookup_backed (member : ⟨ip, inum, some type⟩ ∈ held)
    (name : Name) :
    Triple (fun state => Inv k frame held state ∧ Backed k outside links state)
      (dirlookup k ip name) (fun _ state => Backed k outside links state) := by
  refine Triple.bind (inodeAt_spec ip) (fun inode => ?_)
  refine Triple.strengthen ?_ (fun _ => And.left)
  apply Triple.ite
  · exact fun _ => Triple.throw
  · exact fun _ => lookupLoop_backed member name _ _

end Reading

/-! ## Locking -/

section Locking

variable {outside : List Hold} {links : Nat → BitVec 16} {ip inum : Nat}
  {loaded : Option (BitVec 16)}

theorem SameInodes.backed {before after : Fs}
    (same : SameInodes before after) (backed : Backed k outside links before) :
    Backed k outside links after :=
  backed.of_same ⟨same.disk, fun ip used valid =>
    ⟨same.ref ip ▸ used, same.valid ip ▸ valid, same.inum ip, same.copy ip⟩⟩

/-- What `ilock` reads from disk is saved there. -/
theorem ilock_backed :
    Triple
      (fun state => Inv k frame (⟨ip, inum, loaded⟩ :: held) state ∧
        Backed k outside links state)
      (ilock k ip) (fun _ => Backed k outside links) := by
  rintro before ⟨⟨own, good⟩, backed⟩ result after run
  have number := (good.table.holds _ List.mem_cons_self).1
  have exists_ : inum < k.sb.ninodes := good.table.inum_lt List.mem_cons_self
  have same := sameInodes_locked before ip true
  rcases bind_eq_ok.mp run with ⟨_, _, ⟨⟩, run⟩
  split at run
  · cases run
  · rcases bind_eq_ok.mp run with ⟨_, between, taken, run⟩
    rw [acquiresleep_run] at taken
    split at taken
    · cases taken
    · cases taken
      rcases bind_eq_ok.mp run with ⟨_, _, ⟨⟩, run⟩
      split at run
      · cases run
        exact same.backed backed
      · rcases bind_eq_ok.mp run with ⟨_, _, ⟨⟩, run⟩
        rcases bind_eq_ok.mp run with ⟨_, _, ⟨⟩, run⟩
        split at run
        · cases run
        · next live =>
          cases run
          refine ⟨fun jp used valid => ?_, backed.linked⟩
          by_cases here : jp = ip
          · subst here
            refine .inr ⟨fun off _ => ?_, ?_⟩
            · simp [Fs.withInode]
              rfl
            · simp only [Fs.withInode, Function.update_self, number] at live ⊢
              exact backed.linked inum exists_ live
          · simp only [Fs.withInode, Function.update_of_ne here] at used valid
            rcases backed.entries jp used valid with known | ⟨saved, linked⟩
            · exact .inl known
            · refine .inr ⟨fun off bound => ?_, ?_⟩
              · simpa [Fs.withInode, here] using saved off bound
              · simpa [Fs.withInode, here] using linked

/-- `iunlock` keeps the table backed. -/
theorem iunlock_backed :
    Triple (Backed k outside links) (iunlock ip)
      (fun _ => Backed k outside links) := by
  refine Triple.bind (inodeAt_spec ip) (fun inode => ?_)
  apply Triple.ite
  · exact fun _ => Triple.throw
  · intro _
    exact Triple.modify fun state holds =>
      (sameInodes_locked state ip false).backed holds.1

end Locking

/-! ## Giving up an entry -/

section GivingUp

variable {ip inum : Nat} {before : Fs} {outside : List Hold}
  {links : Nat → BitVec 16} {loaded : Option (BitVec 16)}

/-- The state of an inode that was freed. -/
theorem Confined.free {state : Fs}
    (confined : Confined k ip inum before state)
    (exists_ : inum < k.sb.ninodes) :
    Confined k ip inum before (state.freeInode k ip) := by
  have same : state.freeInode k ip =
      (state.withBlock (k.sb.iblock inum)
        (writeDinode (state.disk (k.sb.iblock inum)) (inum % ipb)
          { (state.inode ip).copy with type := 0 })).withInode ip
        fun inode =>
          { inode with
            copy := { inode.copy with type := 0 }
            valid := false
            locked := false
            ref := inode.ref - 1 } := by
    simp [Fs.freeInode, Fs.withBlock, Fs.withInode, confined.number.2]
  rw [same]
  exact (confined.put exists_ _).edit confined.number.2

/-- The only entry of an inode is given up: now the disk says what it is. -/
theorem Good.copyOf_gone {after : Fs}
    (good : Good k frame own none held before)
    (used : 0 < (before.inode ip).ref)
    (entries : ∀ jp, jp ≠ ip → after.inode jp = before.inode jp)
    (gone : cached after (before.inode ip).inum ip = false) :
    copyOf k after (before.inode ip).inum =
      k.sb.dinode after.disk (before.inode ip).inum := by
  rcases copyOf_cases k after (before.inode ip).inum with
    ⟨jp, here, _⟩ | ⟨_, equal⟩
  · have apart : jp ≠ ip := by
      rintro rfl
      rw [gone] at here
      cases here
    rcases cached_iff.mp here with ⟨usedToo, _, number⟩
    rw [entries jp apart] at usedToo number
    exact absurd (good.table.unique jp ip usedToo used number) apart
  · exact equal

/-- Nobody else refers to an inode whose only reference is given up. -/
theorem Good.alone
    (good : Good k frame own none (⟨ip, inum, loaded⟩ :: held) before)
    (one : (before.inode ip).ref = 1) {hold : Hold} (member : hold ∈ held) :
    hold.slot ≠ ip ∧ hold.inum ≠ inum := by
  have apart : hold.slot ≠ ip := by
    rintro slot
    have count := good.table.counted ip
    have more := holdCount_pos member
    rw [slot] at more
    rw [one, holdCount_cons, if_pos rfl] at count
    omega
  refine ⟨apart, fun same => apart ?_⟩
  have held := List.mem_cons_of_mem (⟨ip, inum, loaded⟩ : Hold) member
  exact good.table.unique _ _ (good.table.ref_pos held)
    (good.table.ref_pos List.mem_cons_self)
    ((good.table.holds _ held).1.trans
      (same.trans (good.table.holds _ List.mem_cons_self).1.symm))

/-- A reference is dropped, and the inode stays. -/
theorem Good.content_drop
    (good : Good k frame own none (⟨ip, inum, loaded⟩ :: held) before)
    (backed : Backed k outside links before)
    (rest : ∀ hold ∈ outside, hold ∈ held) :
    Agree k (content k before)
      (content k (before.withInode ip fun inode =>
        { inode with ref := inode.ref - 1 })) := by
  have used : 0 < (before.inode ip).ref :=
    good.table.ref_pos List.mem_cons_self
  have number : (before.inode ip).inum = inum :=
    (good.table.holds _ List.mem_cons_self).1
  intro other exists_
  by_cases unread :
      (before.inode ip).ref = 1 → (before.inode ip).valid = false
  · rw [content_unref unread]
  · have one : (before.inode ip).ref = 1 := by
      by_contra more
      exact unread fun one => absurd one more
    have valid : (before.inode ip).valid = true := by
      by_contra invalid
      exact unread fun _ => by simpa using invalid
    by_cases same : other = inum
    · have saved : Saved k before ip := by
        rcases backed.entries ip used valid with
          ⟨hold, member, slot⟩ | ⟨saved, _⟩
        · exact absurd slot (good.alone one (rest hold member)).1
        · exact saved
      have loaded := good.table.loaded ip used valid
      have gone : copyOf k (before.withInode ip fun inode =>
          { inode with ref := inode.ref - 1 }) (before.inode ip).inum = _ :=
        good.copyOf_gone used
          (fun jp apart => by simp [Fs.withInode, apart])
          (by simp [cached, Fs.withInode, one])
      have known := good.copyOf_entry used valid
      rw [same, ← number]
      unfold content
      rw [gone, known]
      simp only [Fs.withInode, ← loaded.agrees.type, ← loaded.agrees.size]
      split
      · rfl
      · congr 1
        apply slice_congr
        intro place small
        rw [Nat.zero_add]
        exact saved place (Nat.lt_of_lt_of_le small (reachedSize_le _))
    · have confined : Confined k ip inum before (before.withInode ip
          fun inode => { inode with ref := inode.ref - 1 }) :=
        (Confined.start number).edit number
      exact (confined.othersKept good).content good exists_ same

/-- An inode that was freed has no content. -/
theorem Good.content_freed {state : Fs}
    (good : Good k frame own none held before)
    (used : 0 < (before.inode ip).ref)
    (exists_ : inum < k.sb.ninodes)
    (confined : Confined k ip inum before state) :
    content k (state.freeInode k ip) inum = none := by
  have freed := confined.free exists_
  have gone := good.copyOf_gone used freed.entries
    (by simp [cached, Fs.freeInode])
  rw [confined.number.1] at gone
  have type : (k.sb.dinode (state.freeInode k ip).disk inum).type = 0 := by
    simp only [Fs.freeInode, confined.number.2]
    rw [k.sb.dinode_writeDinode, if_pos rfl]
  rw [content, gone, if_pos type]

/-- The contents are those of `base`, but files without links to which nobody
outside refers may have been freed. -/
def ShrunkFrom (k : Kernel) (outside : List Hold) (links : Nat → BitVec 16)
    (base contents : Contents) : Prop :=
  ∀ other < k.sb.ninodes, contents other = base other ∨
    contents other = none ∧ links other = 0 ∧
      ∀ hold ∈ outside, hold.inum ≠ other

theorem ShrunkFrom.agree {base contents after : Contents}
    (shrunk : ShrunkFrom k outside links base contents)
    (agree : Agree k contents after) :
    ShrunkFrom k outside links base after := by
  intro other exists_
  rw [agree other exists_]
  exact shrunk other exists_

/-- Giving up a reference keeps the table backed; it may free the inode. -/
theorem iput_backed {base : Contents} (rest : ∀ hold ∈ outside, hold ∈ held) :
    Triple
      (fun state => Inv k frame (⟨ip, inum, loaded⟩ :: held) state ∧
        Backed k outside links state ∧
          ShrunkFrom k outside links base (content k state))
      (iput k ip)
      (fun _ state => Backed k outside links state ∧
        ShrunkFrom k outside links base (content k state)) := by
  rintro before ⟨⟨own, good⟩, backed, shrunk⟩ result after run
  have used : 0 < (before.inode ip).ref :=
    good.table.ref_pos List.mem_cons_self
  have exists_ : inum < k.sb.ninodes :=
    good.table.inum_lt List.mem_cons_self
  rcases bind_eq_ok.mp run with ⟨_, _, ⟨⟩, run⟩
  split at run
  · next last =>
    rcases bind_eq_ok.mp run with ⟨_, _, taken, run⟩
    rw [acquiresleep_run] at taken
    split at taken
    · cases taken
    · cases taken
      rcases bind_eq_ok.mp run with ⟨_, trimmed, trunc, run⟩
      rw [iput_free_run] at run
      cases run
      have locked := sameInodes_locked before ip true
      have taken := (good.set_locked ip true).note
        ((locked.valid ip).trans last.2.1)
      have confined := itrunc_confined taken List.mem_cons_self _ rfl _ _ trunc
      have kept := (confined.free exists_).othersKept taken
      have usedNow := taken.table.ref_pos List.mem_cons_self
      constructor
      · refine kept.backed taken usedNow (locked.backed backed) ?_ ?_
        · intro _ valid
          simp [Fs.freeInode] at valid
        · intro live
          simp [Fs.freeInode, confined.number.2,
            k.sb.dinode_writeDinode] at live
      · intro other inside
        by_cases same : other = inum
        · subst same
          refine .inr ⟨taken.content_freed usedNow inside confined, ?_,
            fun hold member => (good.alone last.1 (rest hold member)).2⟩
          -- the entry was read in the walk, so its links are those on disk
          rcases backed.entries ip used last.2.1 with
            ⟨hold, member, slot⟩ | ⟨_, linked⟩
          · exact absurd slot (good.alone last.1 (rest hold member)).1
          · have number := (good.table.holds _ List.mem_cons_self).1
            simp only at number
            rw [number] at linked
            exact linked.symm.trans last.2.2
        · rw [kept.content taken inside same, locked.content]
          exact shrunk other inside
  · cases run
    refine ⟨backed.of_same (sameCopies_withInode fun still valid =>
      ⟨?_, valid, rfl, rfl⟩), shrunk.agree (good.content_drop backed rest)⟩
    simp only at still
    omega

end GivingUp

end OSCourse.FileSystem
