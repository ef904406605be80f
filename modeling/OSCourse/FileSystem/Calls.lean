import OSCourse.FileSystem.Directories

/-!
# The calls keep the invariant

The parts of `sysfile.c` that do not touch the file table or a process, with
the references they are given and those they leave.
-/

namespace OSCourse.FileSystem

open OSCourse.Library.ByteBlock
open OSCourse.Library.Hoare

variable {k : Kernel} {frame : Frame} {held : List Hold} {p : Nat}

theorem beginOp_spec :
    Triple (Inv k frame held) beginOp
      (fun _ state => Inv k frame held state) := by
  apply Triple.modify
  rintro state ⟨own, good⟩
  exact ⟨own, { good with }⟩

theorem endOp_spec :
    Triple (Inv k frame held) endOp
      (fun _ state => Inv k frame held state) := by
  apply Triple.modify
  rintro state ⟨own, good⟩
  exact ⟨own, { good with }⟩

/-- `end_op` and the result of the call. -/
theorem endOp_return {post : Fs → Prop} (result : Int)
    (done : ∀ state, Inv k frame held state → post state) :
    Triple (Inv k frame held) (do endOp; return result)
      (fun _ state => post state) :=
  Triple.bind endOp_spec (fun _ => Triple.pure done)

/-- The frame with another history. -/
def Frame.since (frame : Frame) (history : List Event) : Frame :=
  { frame with history := history }

/-- The invariant with some history. -/
def Later (k : Kernel) (frame : Frame) (held : List Hold) (state : Fs) :
    Prop :=
  ∃ history, Inv k (frame.since history) held state

theorem Inv.later {state : Fs} (inv : Inv k frame held state) :
    Later k frame held state :=
  ⟨frame.history, inv⟩

/-! ## Links -/

section Links

variable {ip inum : Nat} {loaded : Option (BitVec 16)}

theorem linkBad_spec (unshaped : frame.Unshaped) :
    Triple (Inv k frame (⟨ip, inum, loaded⟩ :: held)) (linkBad k ip)
      (fun _ state => Inv k frame held state) := by
  refine Triple.bind ilock_exists (fun _ => ?_)
  apply Triple.exists_pre
  intro type
  refine edit_iupdate_spec List.mem_cons_self unshaped (fun _ => rfl)
    (fun _ => rfl) (fun _ => rfl) ?_
  refine Triple.bind
    (iunlockput_spec ⟨ip, inum, some type⟩ unshaped.allowsFree) (fun _ => ?_)
  exact endOp_return _ (fun _ holds => holds)

theorem linkNew_spec {type : BitVec 16} (unshaped : frame.Unshaped)
    (cwd : CwdHeld frame held p) (new : Path) :
    Triple (Inv k frame (⟨ip, inum, some type⟩ :: held)) (linkNew k p new ip)
      (fun _ state => Inv k frame held state) := by
  have frees := unshaped.allowsFree
  refine Triple.bind (nameiparent_spec frees (cwd.cons _) new)
    (fun result => ?_)
  rcases result with _ | ⟨dp, name⟩
  · exact linkBad_spec unshaped
  · apply Triple.exists_pre
    intro dinum
    apply Triple.exists_pre
    intro dloaded
    refine Triple.bind ilock_exists (fun _ => ?_)
    apply Triple.exists_pre
    intro dtype
    refine Triple.bind
      (inodeAt_held (List.mem_cons_of_mem _ List.mem_cons_self))
      (fun inode => ?_)
    apply Triple.and_pre
    rintro ⟨rfl, _, exists_, _⟩
    refine Triple.bind
      (dirlink_spec List.mem_cons_self unshaped name exists_)
      (fun linked => ?_)
    apply Triple.ite
    · intro _
      refine Triple.bind (iunlockput_spec ⟨dp, dinum, some dtype⟩ frees)
        (fun _ => ?_)
      exact linkBad_spec unshaped
    · intro _
      refine Triple.bind (iunlockput_spec ⟨dp, dinum, some dtype⟩ frees)
        (fun _ => ?_)
      refine Triple.bind (iput_spec ⟨ip, inode.inum, some type⟩ frees)
        (fun _ => ?_)
      exact endOp_return _ (fun _ holds => holds)

theorem sysLink_spec (unshaped : frame.Unshaped)
    (cwd : CwdHeld frame held p) (old new : Option Path) :
    Triple (Inv k frame held) (sysLink k p old new)
      (fun _ state => Inv k frame held state) := by
  have frees := unshaped.allowsFree
  rcases old with _ | old
  · exact Triple.pure (fun _ holds => holds)
  rcases new with _ | new
  · exact Triple.pure (fun _ holds => holds)
  refine Triple.bind beginOp_spec (fun _ => ?_)
  refine Triple.bind (namei_spec frees cwd old) (fun result => ?_)
  rcases result with _ | ip
  · exact endOp_return _ (fun _ holds => holds)
  · apply Triple.exists_pre
    intro inum
    apply Triple.exists_pre
    intro loaded
    refine Triple.bind ilock_exists (fun _ => ?_)
    apply Triple.exists_pre
    intro type
    refine Triple.bind (inodeAt_spec ip) (fun inode => ?_)
    refine Triple.strengthen ?_ (fun _ => And.left)
    apply Triple.ite
    · intro _
      refine Triple.bind (iunlockput_spec ⟨ip, inum, some type⟩ frees)
        (fun _ => ?_)
      exact endOp_return _ (fun _ holds => holds)
    · intro _
      refine edit_iupdate_spec List.mem_cons_self unshaped (fun _ => rfl)
        (fun _ => rfl) (fun _ => rfl) ?_
      refine Triple.bind (iunlock_spec ip) (fun _ => ?_)
      exact linkNew_spec unshaped cwd new

end Links

/-! ## Unlinking -/

section Unlinking

variable {ip inum dp dinum : Nat} {type dtype : BitVec 16}

theorem emptyDirLoop_spec (member : ⟨ip, inum, some tDir⟩ ∈ held)
    (left : Nat) {off : Nat} (aligned : 16 ∣ off) :
    Triple (Inv k frame held) (emptyDirLoop k ip left off)
      (fun _ state => Inv k frame held state) := by
  induction left generalizing off with
  | zero => exact Triple.pure (fun _ holds => holds)
  | succ left induction =>
      refine Triple.bind (readDirent_spec member aligned _) (fun entry => ?_)
      refine Triple.strengthen ?_ (fun _ => And.left)
      apply Triple.ite
      · exact fun _ => induction (by omega)
      · intro _
        exact Triple.pure (fun _ holds => holds)

theorem isFullDir_spec (member : ⟨ip, inum, some type⟩ ∈ held) :
    Triple (Inv k frame held) (isFullDir k ip)
      (fun _ state => Inv k frame held state) := by
  refine Triple.bind (inodeAt_held member) (fun inode => ?_)
  apply Triple.and_pre
  rintro ⟨_, rfl, _⟩
  apply Triple.ite
  · intro directory
    rw [directory] at member
    have checked :
        Triple (Inv k frame held) (isdirempty k ip)
          (fun _ state => Inv k frame held state) :=
      Triple.bind (inodeAt_spec ip) (fun _ =>
        (emptyDirLoop_spec member _ (by decide)).strengthen
          fun _ => And.left)
    exact Triple.bind checked (fun _ => Triple.pure (fun _ holds => holds))
  · intro _
    exact Triple.pure (fun _ holds => holds)

theorem unlinkBad_spec (frees : frame.AllowsFree) (hold : Hold) :
    Triple (Inv k frame (hold :: held)) (unlinkBad k hold.slot)
      (fun _ state => Inv k frame held state) := by
  refine Triple.bind (iunlockput_spec hold frees) (fun _ => ?_)
  exact endOp_return _ (fun _ holds => holds)

theorem unlinkParent_spec (unshaped : frame.Unshaped)
    (member : ⟨dp, dinum, some dtype⟩ ∈ held) :
    Triple (Inv k frame held) (unlinkParent k dp ip)
      (fun _ state => Inv k frame held state) := by
  refine Triple.bind (inodeAt_spec ip) (fun inode => ?_)
  refine Triple.strengthen ?_ (fun _ => And.left)
  apply Triple.ite
  · intro _
    exact edit_flush_spec member unshaped (fun _ => rfl) (fun _ => rfl)
      (fun _ => rfl)
  · intro _
    exact Triple.pure (fun _ holds => holds)

theorem writesEntry_zeros {off : Nat} (aligned : 16 ∣ off) :
    WritesEntry k.sb (BitVec.ofNat 32 off).toNat (16 : BitVec 32).toNat
      zeros := by
  right
  refine ⟨?_, rfl, ?_⟩
  · rw [BitVec.toNat_ofNat]
    omega
  · have root := k.sb.rootExists
    rw [load_zeros]
    omega

theorem unlinkEntry_spec (unshaped : frame.Unshaped) {off : Nat}
    (aligned : 16 ∣ off) :
    Triple
      (Inv k frame
        (⟨ip, inum, some type⟩ :: ⟨dp, dinum, some dtype⟩ :: held))
      (unlinkEntry k dp ip off)
      (fun _ state => Inv k frame held state) := by
  have frees := unshaped.allowsFree
  have parent : (⟨dp, dinum, some dtype⟩ : Hold) ∈
      (⟨ip, inum, some type⟩ :: ⟨dp, dinum, some dtype⟩ :: held :
        List Hold) :=
    List.mem_cons_of_mem _ List.mem_cons_self
  refine Triple.bind
    (writei_spec parent unshaped _ _ _ _ (fun _ => writesEntry_zeros aligned))
    (fun written => ?_)
  apply Triple.ite
  · intro _
    exact Triple.throw
  · intro _
    refine Triple.bind (unlinkParent_spec unshaped parent) (fun _ => ?_)
    refine Triple.bind
      ((iunlockput_spec ⟨dp, dinum, some dtype⟩ frees).strengthen
        fun _ => Inv.swap) (fun _ => ?_)
    refine edit_iupdate_spec List.mem_cons_self unshaped (fun _ => rfl)
      (fun _ => rfl) (fun _ => rfl) ?_
    refine Triple.bind (iunlockput_spec ⟨ip, inum, some type⟩ frees)
      (fun _ => ?_)
    exact endOp_return _ (fun _ holds => holds)

theorem sysUnlink_spec (unshaped : frame.Unshaped)
    (cwd : CwdHeld frame held p) (path : Option Path) :
    Triple (Inv k frame held) (sysUnlink k p path)
      (fun _ state => Inv k frame held state) := by
  have frees := unshaped.allowsFree
  rcases path with _ | path
  · exact Triple.pure (fun _ holds => holds)
  refine Triple.bind beginOp_spec (fun _ => ?_)
  refine Triple.bind (nameiparent_spec frees cwd path) (fun result => ?_)
  rcases result with _ | ⟨dp, name⟩
  · exact endOp_return _ (fun _ holds => holds)
  · apply Triple.exists_pre
    intro dinum
    apply Triple.exists_pre
    intro dloaded
    refine Triple.bind ilock_exists (fun _ => ?_)
    apply Triple.exists_pre
    intro dtype
    have bad :
        Triple (Inv k frame (⟨dp, dinum, some dtype⟩ :: held))
          (unlinkBad k dp) (fun _ state => Inv k frame held state) :=
      unlinkBad_spec frees ⟨dp, dinum, some dtype⟩
    apply Triple.ite
    · exact fun _ => bad
    · intro _
      refine Triple.bind (dirlookup_spec List.mem_cons_self name)
        (fun result => ?_)
      refine Triple.strengthen ?_ (fun _ => And.left)
      rcases result with _ | ⟨ip, off⟩
      · exact bad
      · apply Triple.and_pre
        intro aligned
        apply Triple.exists_pre
        intro inum
        refine Triple.bind ilock_exists (fun _ => ?_)
        apply Triple.exists_pre
        intro type
        refine Triple.bind (inodeAt_spec ip) (fun inode => ?_)
        refine Triple.strengthen ?_ (fun _ => And.left)
        apply Triple.ite
        · intro _
          exact Triple.throw
        · intro _
          refine Triple.bind (isFullDir_spec List.mem_cons_self)
            (fun full => ?_)
          apply Triple.ite
          · intro _
            refine Triple.bind (iunlockput_spec ⟨ip, inum, some type⟩ frees)
              (fun _ => bad)
          · intro _
            exact unlinkEntry_spec unshaped aligned

end Unlinking

/-! ## Creating -/

section Creating

variable {ip inum dp dinum : Nat} {dtype : BitVec 16}

/-- The result of `create` for an inode that exists. -/
def FoundInode (k : Kernel) (frame : Frame) (held : List Hold)
    (type : BitVec 16) : Option Nat → Fs → Prop
  | none, state => Inv k frame held state
  | some ip, state => ∃ inum kind,
      Inv k frame (⟨ip, inum, some kind⟩ :: held) state ∧
        type = tFile ∧ (kind = tFile ∨ kind = tDevice)

theorem createFound_spec (frees : frame.AllowsFree) (type : BitVec 16) :
    Triple
      (Inv k frame (⟨ip, inum, none⟩ :: ⟨dp, dinum, some dtype⟩ :: held))
      (createFound k dp ip type)
      (FoundInode k frame held type) := by
  refine Triple.bind
    ((iunlockput_spec ⟨dp, dinum, some dtype⟩ frees).strengthen
      fun _ => Inv.swap) (fun _ => ?_)
  refine Triple.bind ilock_exists (fun _ => ?_)
  apply Triple.exists_pre
  intro kind
  refine Triple.bind (inodeAt_held List.mem_cons_self) (fun inode => ?_)
  apply Triple.and_pre
  rintro ⟨_, rfl, _⟩
  apply Triple.ite
  · rintro ⟨file, found⟩
    exact Triple.pure (fun _ holds => ⟨inum, _, holds, file, found⟩)
  · intro _
    refine Triple.bind
      (iunlockput_spec ⟨ip, inum, some inode.copy.type⟩ frees) (fun _ => ?_)
    exact Triple.pure (fun _ holds => holds)

/-- The result of `create` for a new inode. -/
def NewInode (k : Kernel) (frame : Frame) (held : List Hold) (inum : Nat)
    (type : BitVec 16) : Option Nat → Fs → Prop
  | none, state => Inv k frame held state
  | some ip, state => Inv k frame (⟨ip, inum, some type⟩ :: held) state

theorem createFail_spec (unshaped : frame.Unshaped) {type : BitVec 16} :
    Triple
      (Inv k frame
        (⟨ip, inum, some type⟩ :: ⟨dp, dinum, some dtype⟩ :: held))
      (createFail k dp ip)
      (NewInode k frame held inum type) := by
  have frees := unshaped.allowsFree
  refine edit_iupdate_spec List.mem_cons_self unshaped (fun _ => rfl)
    (fun _ => rfl) (fun _ => rfl) ?_
  refine Triple.bind (iunlockput_spec ⟨ip, inum, some type⟩ frees)
    (fun _ => ?_)
  refine Triple.bind (iunlockput_spec ⟨dp, dinum, some dtype⟩ frees)
    (fun _ => ?_)
  exact Triple.pure (fun _ holds => holds)

/-- `dirlink` in one held directory of another held inode. -/
theorem dirlink_held {jp jnum : Nat} {type jtype : BitVec 16} {α : Type}
    {rest : Int → FsM α} {post : α → Fs → Prop} (unshaped : frame.Unshaped)
    (directory : ⟨ip, inum, some type⟩ ∈ held)
    (target : ⟨jp, jnum, some jtype⟩ ∈ held) (name : Name)
    (after : ∀ linked, Triple (Inv k frame held) (rest linked) post) :
    Triple (Inv k frame held)
      (do
        let inode ← inodeAt jp
        let linked ← dirlink k ip name inode.inum
        rest linked) post := by
  refine Triple.bind (inodeAt_held target) (fun inode => ?_)
  apply Triple.and_pre
  rintro ⟨rfl, _, exists_, _⟩
  exact Triple.bind (dirlink_spec directory unshaped name exists_) after

theorem createDots_spec (unshaped : frame.Unshaped) {itype : BitVec 16}
    (child : ⟨ip, inum, some itype⟩ ∈ held)
    (parent : ⟨dp, dinum, some dtype⟩ ∈ held) (type : BitVec 16) :
    Triple (Inv k frame held) (createDots k dp ip type)
      (fun _ state => Inv k frame held state) := by
  have done : ∀ result : Bool,
      Triple (Inv k frame held) (pure result : FsM Bool)
        (fun _ state => Inv k frame held state) :=
    fun _ => Triple.pure (fun _ holds => holds)
  apply Triple.ite
  · intro _
    refine dirlink_held unshaped child child _ (fun dot => ?_)
    apply Triple.ite
    · exact fun _ => done false
    · intro _
      refine dirlink_held unshaped child parent _ (fun dots => ?_)
      exact Triple.ite (fun _ => done false) (fun _ => done true)
  · exact fun _ => done true

theorem createParent_spec (unshaped : frame.Unshaped)
    (parent : ⟨dp, dinum, some dtype⟩ ∈ held) (type : BitVec 16) :
    Triple (Inv k frame held) (createParent k dp type)
      (fun _ state => Inv k frame held state) := by
  apply Triple.ite
  · intro _
    exact edit_flush_spec parent unshaped (fun _ => rfl) (fun _ => rfl)
      (fun _ => rfl)
  · intro _
    exact Triple.pure (fun _ holds => holds)

theorem createNew_spec (unshaped : frame.Unshaped) (name : Name)
    (type major minor : BitVec 16) :
    Triple
      (fun state =>
        Inv k frame (⟨ip, inum, none⟩ :: ⟨dp, dinum, some dtype⟩ :: held)
            state ∧
          (k.sb.dinode state.disk inum).type = type)
      (createNew k dp ip name type major minor)
      (NewInode k frame held inum type) := by
  have child : ∀ type : BitVec 16, (⟨ip, inum, some type⟩ : Hold) ∈
      (⟨ip, inum, some type⟩ :: ⟨dp, dinum, some dtype⟩ :: held : List Hold) :=
    fun _ => List.mem_cons_self
  have parent : ∀ type : BitVec 16, (⟨dp, dinum, some dtype⟩ : Hold) ∈
      (⟨ip, inum, some type⟩ :: ⟨dp, dinum, some dtype⟩ :: held : List Hold) :=
    fun _ => List.mem_cons_of_mem _ List.mem_cons_self
  apply Triple.at_state
  rintro before ⟨inv, kind⟩
  have lock := ilock_spec inv
  rw [kind] at lock
  refine Triple.bind lock (fun _ => ?_)
  refine Triple.strengthen ?_ (fun _ => And.right)
  refine edit_iupdate_spec (child type) unshaped (fun _ => rfl)
    (fun _ => rfl) (fun _ => rfl) ?_
  refine Triple.bind
    (createDots_spec unshaped (child type) (parent type) type)
    (fun dots => ?_)
  apply Triple.ite
  · exact fun _ => createFail_spec unshaped
  · intro _
    refine dirlink_held unshaped (parent type) (child type) name
      (fun linked => ?_)
    apply Triple.ite
    · exact fun _ => createFail_spec unshaped
    · intro _
      refine Triple.bind (createParent_spec unshaped (parent type) type)
        (fun _ => ?_)
      refine Triple.bind
        ((iunlockput_spec ⟨dp, dinum, some dtype⟩
          unshaped.allowsFree).strengthen fun _ => Inv.swap) (fun _ => ?_)
      exact Triple.pure (fun _ holds => holds)

/-- The result of `create`. -/
def Created (k : Kernel) (frame : Frame) (held : List Hold)
    (type : BitVec 16) : Option Nat → Fs → Prop
  | none, state => Later k frame held state
  | some ip, state => ∃ inum kind history,
      Inv k (frame.since history) (⟨ip, inum, some kind⟩ :: held) state ∧
        (type = tFile → kind ≠ tDir)

theorem FoundInode.created {type : BitVec 16} {result : Option Nat}
    {state : Fs} (found : FoundInode k frame held type result state) :
    Created k frame held type result state := by
  cases result with
  | none => exact Inv.later found
  | some ip =>
      rcases found with ⟨inum, kind, inv, _, fileOrDevice⟩
      refine ⟨inum, kind, frame.history, inv, fun _ directory => ?_⟩
      rcases fileOrDevice with rfl | rfl
      · exact absurd directory (by decide)
      · exact absurd directory (by decide)

theorem NewInode.created {type : BitVec 16} {event : Event}
    {result : Option Nat} {state : Fs}
    (new : NewInode k (frame.record event) held inum type result state) :
    Created k frame held type result state := by
  cases result with
  | none => exact ⟨_, new⟩
  | some ip =>
      refine ⟨inum, type, _, new, ?_⟩
      rintro rfl
      decide

theorem create_spec (unshaped : frame.Unshaped)
    (cwd : CwdHeld frame held p) (path : Path)
    (type major minor : BitVec 16) :
    Triple (Inv k frame held) (create k p path type major minor)
      (Created k frame held type) := by
  have frees := unshaped.allowsFree
  refine Triple.bind (nameiparent_spec frees cwd path) (fun result => ?_)
  rcases result with _ | ⟨dp, name⟩
  · exact Triple.pure (fun _ holds => Inv.later holds)
  · apply Triple.exists_pre
    intro dinum
    apply Triple.exists_pre
    intro dloaded
    refine Triple.bind ilock_exists (fun _ => ?_)
    apply Triple.exists_pre
    intro dtype
    refine Triple.bind (dirlookup_spec List.mem_cons_self name)
      (fun result => ?_)
    refine Triple.strengthen ?_ (fun _ => And.left)
    rcases result with _ | ⟨ip, off⟩
    · refine Triple.bind (ialloc_spec type unshaped) (fun result => ?_)
      rcases result with _ | ip
      · refine Triple.bind (iunlockput_spec ⟨dp, dinum, some dtype⟩ frees)
          (fun _ => ?_)
        exact Triple.pure (fun _ holds => Inv.later holds)
      · apply Triple.exists_pre
        intro inum
        have recorded : (frame.record (.allocated inum)).Unshaped :=
          fun _ _ _ => unshaped _ _ _
        exact (createNew_spec recorded name type major minor).weaken
          (fun _ _ => NewInode.created)
    · refine Triple.strengthen ?_ (fun _ => And.left)
      apply Triple.exists_pre
      intro inum
      exact (createFound_spec frees type).weaken
        (fun _ _ => FoundInode.created)

/-- `sys_mkdir` and `sys_mknod`. -/
theorem makeNode_spec (unshaped : frame.Unshaped)
    (cwd : CwdHeld frame held p) (path : Option Path)
    (type major minor : BitVec 16) :
    Triple (Inv k frame held) (makeNode k p path type major minor)
      (fun _ state => Later k frame held state) := by
  refine Triple.bind beginOp_spec (fun _ => ?_)
  rcases path with _ | path
  · exact endOp_return _ (fun _ => Inv.later)
  refine Triple.bind (create_spec unshaped cwd path type major minor)
    (fun result => ?_)
  rcases result with _ | ip
  · apply Triple.exists_pre
    intro history
    exact endOp_return _ (fun _ holds => ⟨history, holds⟩)
  · apply Triple.exists_pre
    intro inum
    apply Triple.exists_pre
    intro kind
    apply Triple.exists_pre
    intro history
    refine Triple.strengthen ?_ (fun _ => And.left)
    refine Triple.bind
      (iunlockput_spec ⟨ip, inum, some kind⟩
        (fun _ _ _ _ => unshaped _ _ _)) (fun _ => ?_)
    exact endOp_return _ (fun _ holds => ⟨history, holds⟩)

end Creating

/-! ## Permissions -/

/-- The permissions after `chmod`. -/
theorem permissions_chmod (frame : Frame) (inum : Nat) (mode : BitVec 32) :
    (frame.record (.chmod inum mode)).permissions inum = maskMode mode := by
  simp [Frame.permissions, Frame.record, lastPermissions]

/-- `chmod` of one inode leaves the permissions of the others. -/
theorem permissions_chmod_of_ne (frame : Frame) {inum other : Nat}
    (mode : BitVec 32) (apart : other ≠ inum) :
    (frame.record (.chmod inum mode)).permissions other =
      frame.permissions other := by
  simp [Frame.permissions, Frame.record, lastPermissions, Ne.symm apart]

/-- The assignment of `sys_chmod`, its `iupdate` and the event. -/
theorem Good.chmod {own : Owners} {state : Fs} {ip inum : Nat}
    {type : BitVec 16} (good : Good k frame own none held state)
    (member : ⟨ip, inum, some type⟩ ∈ held) (unshaped : frame.Unshaped)
    (mode : BitVec 32) :
    Good k (frame.record (.chmod inum mode)) own none held
      (((state.withInode ip (Inode.edit fun copy =>
        { copy with permissions := maskMode mode })).withBlock
          (k.sb.iblock inum)
          (writeDinode (state.disk (k.sb.iblock inum)) (inum % ipb)
            { (state.inode ip).copy with
              permissions := maskMode mode })).record (.chmod inum mode)) := by
  rcases good.table.loaded_of_hold member with ⟨number, _, _, loaded⟩
  have flushed := good.flush
    (fun copy => { copy with permissions := maskMode mode })
    (frame.record (.chmod inum mode)) member (.inl rfl) rfl
    (number ▸ loaded.addrs (by simp))
    (permissions_chmod frame inum mode).symm (unshaped _ _ _)
    (fun _ => permissions_chmod_of_ne frame mode)
    (fun _ _ _ _ _ => unshaped _ _ _) rfl rfl
  have history : (frame.record (.chmod inum mode)).history =
      .chmod inum mode :: state.history := by
    rw [good.history]
    rfl
  rw [history] at flushed
  exact flushed

theorem sysChmod_spec (unshaped : frame.Unshaped)
    (cwd : CwdHeld frame held p) (path : Option Path) (mode : BitVec 32) :
    Triple (Inv k frame held) (sysChmod k p path mode)
      (fun _ state => Later k frame held state) := by
  have frees := unshaped.allowsFree
  rcases path with _ | path
  · exact Triple.pure (fun _ => Inv.later)
  refine Triple.bind beginOp_spec (fun _ => ?_)
  refine Triple.bind (namei_spec frees cwd path) (fun result => ?_)
  rcases result with _ | ip
  · exact endOp_return _ (fun _ => Inv.later)
  · apply Triple.exists_pre
    intro inum
    apply Triple.exists_pre
    intro loaded
    refine Triple.bind ilock_exists (fun _ => ?_)
    apply Triple.exists_pre
    intro type
    have after :
        Triple
          (Inv k (frame.record (.chmod inum mode))
            (⟨ip, inum, some type⟩ :: held))
          (do iunlock ip; iput k ip; endOp; return (0 : Int))
          (fun _ state => Later k frame held state) := by
      refine Triple.bind (iunlock_spec ip) (fun _ => ?_)
      refine Triple.bind
        (iput_spec ⟨ip, inum, some type⟩ (fun _ _ _ _ => unshaped _ _ _))
        (fun _ => ?_)
      exact endOp_return 0 (fun _ holds => ⟨_, holds⟩)
    rintro state ⟨own, good⟩ result final run
    have number := (good.table.loaded_of_hold List.mem_cons_self).1
    rcases bind_eq_ok.mp run with ⟨_, _, ⟨⟩, run⟩
    rcases bind_eq_ok.mp run with ⟨_, written, flushed, run⟩
    rw [edit_iupdate_run k _ number] at flushed
    cases flushed
    rcases bind_eq_ok.mp run with ⟨_, _, ⟨⟩, run⟩
    rcases bind_eq_ok.mp run with ⟨_, _, ⟨⟩, run⟩
    refine after _ ⟨own, ?_⟩ result final run
    have chmod := good.chmod List.mem_cons_self unshaped mode
    simp only [Fs.withBlock, Fs.withInode, Function.update_self, Inode.edit,
      number] at chmod ⊢
    exact chmod

/-- `sys_getperm` changes nothing that the invariant is about. -/
theorem sysGetperm_spec (frees : frame.AllowsFree)
    (cwd : CwdHeld frame held p) (path : Option Path) :
    Triple (Inv k frame held) (sysGetperm k p path)
      (fun _ state => Inv k frame held state) := by
  rcases path with _ | path
  · exact Triple.pure (fun _ holds => holds)
  refine Triple.bind beginOp_spec (fun _ => ?_)
  refine Triple.bind (namei_spec frees cwd path) (fun result => ?_)
  rcases result with _ | ip
  · exact endOp_return _ (fun _ holds => holds)
  · apply Triple.exists_pre
    intro inum
    apply Triple.exists_pre
    intro loaded
    refine Triple.bind ilock_exists (fun _ => ?_)
    apply Triple.exists_pre
    intro type
    refine Triple.bind (inodeAt_spec ip) (fun inode => ?_)
    refine Triple.strengthen ?_ (fun _ => And.left)
    refine Triple.bind (iunlock_spec ip) (fun _ => ?_)
    refine Triple.bind (iput_spec ⟨ip, inum, some type⟩ frees) (fun _ => ?_)
    exact endOp_return _ (fun _ holds => holds)

end OSCourse.FileSystem
