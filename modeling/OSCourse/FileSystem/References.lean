import OSCourse.FileSystem.Content

/-!
# References to inodes

`iget`, `ialloc`, `idup`, `ilock`, `iunlock` and `iput` keep the invariant while
they create and drop references.  `iput` frees the inode on disk when it drops
the last reference to an inode without links.
-/

namespace OSCourse.FileSystem

open OSCourse.Library.ByteBlock
open OSCourse.Library.Hoare

variable {k : Kernel} {frame : Frame} {own : Owners} {held : List Hold}

/-! ## Finding an entry -/

theorem iget_run (k : Kernel) (inum : Nat) (state : Fs) :
    iget k inum state =
      match (List.range k.ninode).find? fun ip =>
          decide (0 < (state.inode ip).ref) &&
            decide ((state.inode ip).inum = inum) with
      | some ip =>
          .ok (ip, state.withInode ip
            fun inode => { inode with ref := inode.ref + 1 })
      | none =>
          match (List.range k.ninode).find? fun ip =>
              decide ((state.inode ip).ref = 0) with
          | none => .error (.panic "iget: no inodes")
          | some ip =>
              .ok (ip, state.withInode ip fun inode =>
                { inode with inum := inum, ref := 1, valid := false }) := by
  show (match (List.range k.ninode).find? fun ip =>
      decide (0 < (state.inode ip).ref) &&
        decide ((state.inode ip).inum = inum) with
    | some ip => _
    | none => _ : FsM Nat) state = _
  cases (List.range k.ninode).find? fun ip =>
      decide (0 < (state.inode ip).ref) &&
        decide ((state.inode ip).inum = inum) with
  | some ip => rfl
  | none =>
      show (match (List.range k.ninode).find? fun ip =>
          decide ((state.inode ip).ref = 0) with
        | none => _
        | some ip => _ : FsM Nat) state = _
      cases (List.range k.ninode).find? fun ip =>
        decide ((state.inode ip).ref = 0) <;> rfl

theorem iget_disk {inum ip : Nat} {state after : Fs}
    (run : iget k inum state = .ok (ip, after)) : after.disk = state.disk := by
  rw [iget_run] at run
  split at run
  · cases run
    rfl
  · split at run
    · cases run
    · cases run
      rfl

/-- `iget` gives a new reference to the inode. -/
theorem iget_spec {inum : Nat} (exists_ : inum < k.sb.ninodes) :
    Triple (Inv k frame held) (iget k inum)
      (fun ip state => Inv k frame (⟨ip, inum, none⟩ :: held) state) := by
  rintro state ⟨own, good⟩ ip after run
  have bounded : ∀ ip ∈ List.range k.ninode,
      ∀ hold ∈ (⟨ip, inum, none⟩ :: held : List Hold),
        hold.slot < k.ninode := by
    intro ip inside hold member
    rcases List.mem_cons.mp member with rfl | member
    · exact List.mem_range.mp inside
    · exact good.slots hold member
  rw [iget_run] at run
  split at run
  · next found =>
    cases run
    have test := List.find?_some found
    simp only [Bool.and_eq_true, decide_eq_true_eq] at test
    refine ⟨own, good.with_inode ?_
      (bounded ip (List.mem_of_find?_eq_some found))⟩
    rw [← test.2]
    exact good.table.push test.1
  · next missing =>
    split at run
    · cases run
    · next found =>
      cases run
      have free := List.find?_some found
      simp only [decide_eq_true_eq] at free
      refine ⟨own, good.with_inode ?_
        (bounded ip (List.mem_of_find?_eq_some found))⟩
      refine good.table.recycle exists_ free ?_
      intro jp used same
      have test := List.find?_eq_none.mp missing jp
        (List.mem_range.mpr (good.slot_lt used))
      simp [used, same] at test

/-- `idup` gives a new reference to an entry that is held. -/
theorem idup_spec {hold : Hold} (member : hold ∈ held) :
    Triple (Inv k frame held) (idup hold.slot)
      (fun ip state => Inv k frame (⟨ip, hold.inum, none⟩ :: held) state) := by
  rintro state ⟨own, good⟩ ip after ⟨⟩
  have used := good.table.ref_pos member
  refine ⟨own, good.with_inode ?_ ?_⟩
  · rw [← (good.table.holds hold member).1]
    exact good.table.push used
  · intro other inside
    rcases List.mem_cons.mp inside with rfl | inside
    · exact good.slots hold member
    · exact good.slots other inside

/-! ## Allocating -/

theorem ialloc_run (k : Kernel) (type : BitVec 16) (state : Fs) :
    ialloc k type state =
      match freeInode k state.disk with
      | none => .ok (none, state)
      | some inum =>
          (iget k inum >>= fun ip => pure (some ip) : FsM (Option Nat))
            ((state.withBlock (k.sb.iblock inum)
              (formatDinode (state.disk (k.sb.iblock inum)) (inum % ipb)
                type)).record (.allocated inum)) := by
  show (match freeInode k state.disk with
    | none => _
    | some inum => _ : FsM (Option Nat)) state = _
  cases freeInode k state.disk <;> rfl

/-- A free disk inode is taken: no entry of the table has read it. -/
theorem Good.allocate {state : Fs} {inum : Nat} (type : BitVec 16)
    (good : Good k frame own none held state) (unshaped : frame.Unshaped)
    (found : freeInode k state.disk = some inum) :
    inum < k.sb.ninodes ∧
      Good k (frame.record (.allocated inum)) own none held
        ((state.withBlock (k.sb.iblock inum)
          (formatDinode (state.disk (k.sb.iblock inum)) (inum % ipb)
            type)).record (.allocated inum)) := by
  have exists_ : inum < k.sb.ninodes := by
    have inside := List.mem_range'_1.mp (List.mem_of_find?_eq_some found)
    have root := k.sb.rootExists
    omega
  have free : (k.sb.dinode state.disk inum).type = 0 := by
    simpa using List.find?_some found
  have written := fun other =>
    k.sb.dinode_formatDinode state.disk inum other type
  refine ⟨exists_, ?_⟩
  have same :
      (state.withBlock (k.sb.iblock inum)
        (formatDinode (state.disk (k.sb.iblock inum)) (inum % ipb)
          type)).record (.allocated inum) =
        { state with
          disk := Function.update state.disk (k.sb.iblock inum)
            (formatDinode (state.disk (k.sb.iblock inum)) (inum % ipb) type)
          inode := state.inode
          history := (frame.record (.allocated inum)).history } := by
    simp [Fs.record, Fs.withBlock, Frame.record, good.history]
  rw [same]
  refine good.put_dinode written
    (good.image.put_dinode exists_ written (.inl rfl) ?_ ?_) ?_ good.slots
    ?_ (unshaped _ _ _) ?_ (fun _ _ _ _ _ => unshaped _ _ _) rfl rfl
  · intro block place owned
    exact absurd free (good.image.live block inum place owned).2
  · intro _ place nonzero
    exact absurd rfl nonzero
  · refine { good.table with loaded := ?_ }
    intro ip used valid
    refine good.table.loaded_put_dinode written (.inl rfl) used valid ?_
    intro same
    have loaded := good.table.loaded ip used valid
    apply loaded.live
    rw [loaded.agrees.type, same, free]
  · simp [freshDinode, Frame.permissions, Frame.record, lastPermissions]
  · intro other apart
    simp [Frame.permissions, Frame.record, lastPermissions, Ne.symm apart]

/-- The result of `ialloc`: nothing, or a reference to a new inode. -/
def Allocated (k : Kernel) (frame : Frame) (held : List Hold)
    (type : BitVec 16) : Option Nat → Fs → Prop
  | none, state => Inv k frame held state
  | some ip, state => ∃ inum,
      Inv k (frame.record (.allocated inum)) (⟨ip, inum, none⟩ :: held) state ∧
        (k.sb.dinode state.disk inum).type = type

/-- `ialloc` gives a reference to a new inode. -/
theorem ialloc_spec (type : BitVec 16) (unshaped : frame.Unshaped) :
    Triple (Inv k frame held) (ialloc k type)
      (Allocated k frame held type) := by
  rintro state ⟨own, good⟩ result after run
  rw [ialloc_run] at run
  split at run
  · cases run
    exact ⟨own, good⟩
  · next inum found =>
    rcases good.allocate type unshaped found with
      ⟨exists_, allocated⟩
    rcases bind_eq_ok.mp run with ⟨ip, between, taken, ⟨⟩⟩
    refine ⟨inum, iget_spec exists_ _ ⟨own, allocated⟩ ip _ taken, ?_⟩
    rw [iget_disk taken]
    show (k.sb.dinode (Function.update _ _ _) inum).type = type
    rw [k.sb.dinode_formatDinode, if_pos rfl]
    rfl

/-! ## Locking -/

/-- Taking or giving back the lock of an entry keeps the invariant. -/
theorem Good.set_locked {state : Fs} {skip : Option Nat}
    (good : Good k frame own skip held state) (ip : Nat) (locked : Bool) :
    Good k frame own skip held
      (state.withInode ip fun inode => { inode with locked := locked }) := by
  refine good.with_inode ?_ good.slots
  refine good.table.replace ?_ ?_ ?_ ?_
  · rfl
  · rfl
  · exact fun valid => ⟨valid, rfl⟩
  · intro used valid
    have loaded := good.table.loaded ip used valid
    exact ⟨loaded.agrees, loaded.live, loaded.addrs⟩

theorem acquiresleep_run (ip : Nat) (state : Fs) :
    acquiresleep ip state =
      if (state.inode ip).locked then .error .deadlock
      else .ok ((), state.withInode ip
        fun inode => { inode with locked := true }) := by
  show (if (state.inode ip).locked then _ else _ : FsM Unit) state = _
  split <;> rfl

theorem acquiresleep_spec (ip : Nat) :
    Triple (Inv k frame held) (acquiresleep ip)
      (fun _ state => Inv k frame held state) := by
  rintro state ⟨own, good⟩ result after run
  rw [acquiresleep_run] at run
  split at run
  · cases run
  · cases run
    exact ⟨own, good.set_locked ip true⟩

theorem iunlock_spec (ip : Nat) :
    Triple (Inv k frame held) (iunlock ip)
      (fun _ state => Inv k frame held state) := by
  refine Triple.bind (inodeAt_spec ip) (fun inode => ?_)
  apply Triple.ite
  · intro _
    exact Triple.throw
  · intro _
    apply Triple.modify
    rintro state ⟨⟨own, good⟩, _⟩
    exact ⟨own, good.set_locked ip false⟩

/-- An inode is read from disk into its entry. -/
theorem Good.load {state : Fs} {ip : Nat}
    (good : Good k frame own none held state)
    (used : 0 < (state.inode ip).ref)
    (live : (k.sb.dinode state.disk (state.inode ip).inum).type ≠ 0)
    (invalid : (state.inode ip).valid = false) :
    Good k frame own none held
      (state.withInode ip fun inode =>
        { inode with
          copy := k.sb.dinode state.disk (state.inode ip).inum
          valid := true }) := by
  refine good.with_inode ?_ good.slots
  refine good.table.replace ?_ ?_ ?_ ?_
  · rfl
  · rfl
  · simp [invalid]
  · intro _ _
    refine ⟨⟨rfl, rfl, rfl⟩, live, fun _ => ?_⟩
    exact good.image.addrs _ (good.table.range ip used) (by simp) live

/-- `ilock` reads the inode, so that its holder knows its type. -/
theorem ilock_spec {before : Fs} {ip inum : Nat}
    {loaded : Option (BitVec 16)}
    (inv : Inv k frame (⟨ip, inum, loaded⟩ :: held) before) :
    Triple (fun current => current = before) (ilock k ip)
      (fun _ state => state.disk = before.disk ∧
        Inv k frame
          (⟨ip, inum, some (k.sb.dinode before.disk inum).type⟩ :: held)
          state) := by
  rintro current rfl result after run
  rcases inv with ⟨own, good⟩
  have number := (good.table.holds _ List.mem_cons_self).1
  have locked := good.set_locked ip true
  have used := locked.table.ref_pos List.mem_cons_self
  rcases bind_eq_ok.mp run with ⟨_, _, ⟨⟩, run⟩
  split at run
  · cases run
  · rcases bind_eq_ok.mp run with ⟨_, between, taken, run⟩
    rw [acquiresleep_run] at taken
    split at taken
    · cases taken
    · cases taken
      rcases bind_eq_ok.mp run with ⟨_, _, ⟨⟩, run⟩
      split at run
      · next valid =>
        cases run
        have noted := locked.note valid
        have kind := (locked.table.loaded ip used valid).agrees.type
        simp only [Fs.withInode, Function.update_self] at kind
        rw [number] at kind
        simp only [Fs.withInode, Function.update_self, kind] at noted
        exact ⟨rfl, own, noted⟩
      · next invalid =>
        rcases bind_eq_ok.mp run with ⟨_, _, ⟨⟩, run⟩
        rcases bind_eq_ok.mp run with ⟨_, _, ⟨⟩, run⟩
        split at run
        · cases run
        · next live =>
          cases run
          have read := locked.load used live (by simpa using invalid)
          have noted := read.note (by simp [Fs.withInode])
          refine ⟨rfl, own, ?_⟩
          simp only [Fs.withInode, Function.update_self, number] at noted ⊢
          exact noted

/-- `ilock`, with any type. -/
theorem ilock_exists {ip inum : Nat} {loaded : Option (BitVec 16)} :
    Triple (Inv k frame (⟨ip, inum, loaded⟩ :: held)) (ilock k ip)
      (fun _ state => ∃ type,
        Inv k frame (⟨ip, inum, some type⟩ :: held) state) := by
  apply Triple.at_state
  intro before inv
  exact (ilock_spec inv).weaken (fun _ _ holds => ⟨_, holds.2⟩)

/-- `ilock` of an inode that was read before. -/
theorem ilock_loaded {ip inum : Nat} {type : BitVec 16} :
    Triple (Inv k frame (⟨ip, inum, some type⟩ :: held)) (ilock k ip)
      (fun _ state =>
        Inv k frame (⟨ip, inum, some type⟩ :: held) state) := by
  apply Triple.at_state
  rintro before ⟨own, good⟩
  rcases good.table.loaded_of_hold List.mem_cons_self with
    ⟨number, _, kind, loaded⟩
  have same : (k.sb.dinode before.disk inum).type = type := by
    rw [← number, ← loaded.agrees.type, kind]
  refine (ilock_spec ⟨own, good⟩).weaken ?_
  rw [same]
  exact fun _ _ holds => holds.2

/-! ## Dropping a reference -/

/-- A reference is dropped and the inode stays. -/
theorem Good.drop {state : Fs} {hold : Hold}
    (good : Good k frame own none (hold :: held) state) :
    Good k frame own none held
      (state.withInode hold.slot
        fun inode => { inode with ref := inode.ref - 1 }) := by
  have used := good.table.ref_pos List.mem_cons_self
  refine good.with_inode ?_
    (fun other member => good.slots other (List.mem_cons_of_mem _ member))
  refine good.table.pop ?_ ?_ ?_ ?_ ?_
  · exact Nat.sub_add_cancel used
  · rfl
  · exact fun _ => ⟨rfl, rfl⟩
  · exact fun jp _ => good.table.loaded jp
  · intro _ valid
    have loaded := good.table.loaded hold.slot used valid
    exact ⟨loaded.agrees, loaded.live, loaded.addrs⟩

/-- The state in which `iput` leaves a truncated inode that it frees. -/
def Fs.freeInode (k : Kernel) (state : Fs) (ip : Nat) : Fs :=
  { state with
    disk := Function.update state.disk (k.sb.iblock (state.inode ip).inum)
      (writeDinode (state.disk (k.sb.iblock (state.inode ip).inum))
        ((state.inode ip).inum % ipb)
        { (state.inode ip).copy with type := 0 })
    inode := Function.update state.inode ip
      { state.inode ip with
        copy := { (state.inode ip).copy with type := 0 }
        valid := false
        locked := false
        ref := (state.inode ip).ref - 1 } }

/-- The last reference to a truncated inode is dropped and the inode freed. -/
theorem Good.free {state : Fs} {ip inum : Nat} {type : BitVec 16}
    (good : Good k (frame.relax inum) own none
      (⟨ip, inum, some type⟩ :: held) state)
    (last : (state.inode ip).ref = 1)
    (unowned : ∀ block place, own block ≠ some (inum, place))
    (empty : (state.inode ip).copy.size = 0)
    (shape : frame.shape inum 0 0) :
    Good k frame own none held (state.freeInode k ip) := by
  have used := good.table.ref_pos List.mem_cons_self
  have exists_ := good.table.inum_lt List.mem_cons_self
  rcases good.table.loaded_of_hold List.mem_cons_self with
    ⟨number, _, _, loaded⟩
  have written := fun other => k.sb.dinode_writeDinode state.disk inum other
    { (state.inode ip).copy with type := 0 }
  have same :
      state.freeInode k ip =
        { state with
          disk := Function.update state.disk (k.sb.iblock inum)
            (writeDinode (state.disk (k.sb.iblock inum)) (inum % ipb)
              { (state.inode ip).copy with type := 0 })
          inode := Function.update state.inode ip
            { state.inode ip with
              copy := { (state.inode ip).copy with type := 0 }
              valid := false
              locked := false
              ref := (state.inode ip).ref - 1 }
          history := frame.history } := by
    have history : state.history = frame.history := good.history
    simp only [Fs.freeInode, number, ← history]
  rw [same]
  refine good.put_dinode written ?_ ?_
    (fun other member => good.slots other (List.mem_cons_of_mem _ member))
    ?_ ?_ (fun _ _ => rfl) ?_ rfl rfl
  · refine good.image.put_dinode exists_ written (.inl rfl) ?_ ?_
    · intro block place owned
      exact absurd owned (unowned block place)
    · exact fun nonzero => absurd rfl nonzero
  · refine good.table.pop ?_ ?_ ?_ ?_ ?_
    · exact Nat.sub_add_cancel used
    · rfl
    · simp [last]
    · intro jp apart usedToo valid
      refine good.table.loaded_put_dinode written (.inl rfl) usedToo valid ?_
      intro equal
      exact apart
        (good.table.unique jp ip usedToo used (equal.trans number.symm))
    · simp
  · rw [loaded.agrees.permissions, number]
    exact good.permissions inum exists_
  · rw [empty]
    exact shape
  · rintro other type size apart (equal | holds)
    · exact absurd equal apart
    · exact holds

theorem iput_free_run (k : Kernel) (ip : Nat) (state : Fs) :
    (do
      setInode ip (Inode.edit fun copy => { copy with type := 0 })
      iupdate k ip
      setInode ip fun inode => { inode with valid := false }
      releasesleep ip
      setInode ip fun inode => { inode with ref := inode.ref - 1 } :
        FsM Unit) state =
      .ok ((), state.freeInode k ip) := by
  show Except.ok _ = _
  simp [Fs.freeInode, Fs.withInode, Fs.withBlock, Inode.edit]

/-- `iput` drops a reference. -/
theorem iput_spec (hold : Hold) (frees : frame.AllowsFree) :
    Triple (Inv k frame (hold :: held)) (iput k hold.slot)
      (fun _ state => Inv k frame held state) := by
  rcases hold with ⟨ip, inum, known⟩
  refine Triple.bind (inodeAt_spec ip) (fun inode => ?_)
  apply Triple.ite
  · rintro ⟨one, valid, _⟩
    apply Triple.at_state
    rintro before ⟨⟨own, good⟩, rfl⟩
    have count := good.table.counted ip
    have shape : frame.shape inum 0 0 :=
      frees _ _ _ (good.shape inum (good.table.inum_lt List.mem_cons_self))
    have taken :
        Triple (fun current => current = before) (acquiresleep ip)
          (fun _ => Inv k (frame.relax inum)
            (⟨ip, inum, some (before.inode ip).copy.type⟩ :: held)) := by
      refine (acquiresleep_spec ip).strengthen ?_
      rintro _ rfl
      exact ⟨own, (good.relax inum).note valid⟩
    refine Triple.bind taken (fun _ => ?_)
    refine Triple.bind (itrunc_spec List.mem_cons_self (.inl rfl))
      (fun _ => ?_)
    rintro state ⟨own', truncated, unowned, empty⟩ result after run
    rw [iput_free_run] at run
    cases run
    refine ⟨own', truncated.free ?_ unowned empty shape⟩
    rw [truncated.table.counted, ← one, count]
    simp
  · intro _
    apply Triple.modify
    rintro state ⟨⟨own, good⟩, _⟩
    exact ⟨own, good.drop⟩

/-- `iunlockput` drops a reference. -/
theorem iunlockput_spec (hold : Hold) (frees : frame.AllowsFree) :
    Triple (Inv k frame (hold :: held)) (iunlockput k hold.slot)
      (fun _ state => Inv k frame held state) :=
  Triple.bind (iunlock_spec hold.slot) (fun _ => iput_spec hold frees)

end OSCourse.FileSystem
