import OSCourse.FileSystem.References

/-!
# Directories and paths

Looking up, entering and walking directories keeps the invariant.  A lookup
returns a new reference; a walk gives up the references it no longer needs.
-/

namespace OSCourse.FileSystem

open OSCourse.Library.ByteBlock
open OSCourse.Library.Hoare

variable {k : Kernel} {frame : Frame} {held : List Hold}

/-- The order in which references are listed does not matter. -/
theorem Inv.swap {first second : Hold} {state : Fs}
    (inv : Inv k frame (first :: second :: held) state) :
    Inv k frame (second :: first :: held) state := by
  rcases inv with ⟨own, good⟩
  exact ⟨own, good.perm (List.Perm.swap _ _ _)⟩

/-- What the holder of an entry reads in it. -/
theorem inodeAt_held {ip inum : Nat} {type : BitVec 16}
    (member : ⟨ip, inum, some type⟩ ∈ held) :
    Triple (Inv k frame held) (inodeAt ip)
      (fun inode state => Inv k frame held state ∧ inode.inum = inum ∧
        inode.copy.type = type ∧ inum < k.sb.ninodes ∧
        inode.copy.permissions = frame.permissions inum) := by
  refine (inodeAt_spec ip).weaken ?_
  rintro inode state ⟨⟨own, good⟩, rfl⟩
  rcases good.table.loaded_of_hold member with ⟨number, _, kind, loaded⟩
  have exists_ := good.table.inum_lt member
  refine ⟨⟨own, good⟩, number, kind, exists_, ?_⟩
  rw [loaded.agrees.permissions, number]
  exact good.permissions inum exists_

/-! ## Directory entries -/

/-- The result of a lookup: nothing, or a new reference and an entry's
offset. -/
def LookedUp (k : Kernel) (frame : Frame) (held : List Hold) :
    Option (Nat × Nat) → Fs → Prop
  | none, state => Inv k frame held state
  | some (ip, off), state =>
      (∃ inum, Inv k frame (⟨ip, inum, none⟩ :: held) state) ∧ 16 ∣ off

section Entries

variable {dp inum : Nat} {type : BitVec 16}

theorem lookupLoop_spec (member : ⟨dp, inum, some tDir⟩ ∈ held)
    (name : Name) (left : Nat) {off : Nat} (aligned : 16 ∣ off) :
    Triple (Inv k frame held) (lookupLoop k dp name left off)
      (LookedUp k frame held) := by
  induction left generalizing off with
  | zero => exact Triple.pure (fun _ holds => holds)
  | succ left induction =>
      refine Triple.bind (readDirent_spec member aligned _) (fun entry => ?_)
      apply Triple.and_pre
      intro exists_
      have next : 16 ∣ off + 16 := by omega
      apply Triple.ite
      · exact fun _ => induction next
      · intro _
        apply Triple.ite
        · intro _
          refine Triple.bind (iget_spec exists_) (fun ip => ?_)
          exact Triple.pure (fun _ holds => ⟨⟨_, holds⟩, aligned⟩)
        · exact fun _ => induction next

/-- `dirlookup` succeeds only in a directory. -/
theorem dirlookup_spec (member : ⟨dp, inum, some type⟩ ∈ held)
    (name : Name) :
    Triple (Inv k frame held) (dirlookup k dp name)
      (fun result state => LookedUp k frame held result state ∧
        type = tDir) := by
  refine Triple.bind (inodeAt_held member) (fun inode => ?_)
  apply Triple.and_pre
  rintro ⟨_, kind, _⟩
  apply Triple.ite
  · intro _
    exact Triple.throw
  · intro directory
    have isDirectory : type = tDir := by
      rw [← kind]
      simpa using directory
    subst isDirectory
    exact (lookupLoop_spec member name _ (Nat.dvd_zero 16)).weaken
      (fun _ _ holds => ⟨holds, rfl⟩)

theorem emptyLoop_spec (member : ⟨dp, inum, some tDir⟩ ∈ held)
    (left : Nat) {off : Nat} (aligned : 16 ∣ off) :
    Triple (Inv k frame held) (emptyLoop k dp left off)
      (fun result state => Inv k frame held state ∧ 16 ∣ result) := by
  induction left generalizing off with
  | zero => exact Triple.pure (fun _ holds => ⟨holds, aligned⟩)
  | succ left induction =>
      refine Triple.bind (readDirent_spec member aligned _) (fun entry => ?_)
      apply Triple.ite
      · intro _
        exact Triple.pure (fun _ holds => ⟨holds.1, aligned⟩)
      · intro _
        exact (induction (by omega)).strengthen (fun _ holds => holds.1)

theorem load_direntBytes (name : Name) (number : Nat) :
    load (direntBytes name number) 0 2 = number % 256 ^ 2 := by
  rw [← load_littleEndian]
  apply load_congr
  intro place bound
  simp [direntBytes, bound]

/-- Writing the entry of an inode is harmless to a directory. -/
theorem writesEntry_direntBytes {off number : Nat} (name : Name)
    (aligned : 16 ∣ off) (exists_ : number < k.sb.ninodes) :
    WritesEntry k.sb (BitVec.ofNat 32 off).toNat (16 : BitVec 32).toNat
      (direntBytes name number) := by
  right
  refine ⟨?_, rfl, ?_⟩
  · rw [BitVec.toNat_ofNat]
    omega
  · rw [load_direntBytes]
    exact (Nat.mod_le _ _).trans_lt exists_

/-- `dirlink` of an inode that exists. -/
theorem dirlink_spec (member : ⟨dp, inum, some type⟩ ∈ held)
    (unshaped : frame.Unshaped) (name : Name) {number : Nat}
    (exists_ : number < k.sb.ninodes) :
    Triple (Inv k frame held) (dirlink k dp name number)
      (fun _ state => Inv k frame held state) := by
  refine Triple.bind (dirlookup_spec member name) (fun result => ?_)
  apply Triple.and_pre
  intro directory
  rcases result with _ | ⟨ip, off⟩
  · refine Triple.bind (inodeAt_spec dp) (fun inode => ?_)
    subst directory
    refine Triple.bind
      ((emptyLoop_spec member _ (Nat.dvd_zero 16)).strengthen
        fun _ => And.left) (fun off => ?_)
    apply Triple.and_pre
    intro aligned
    refine Triple.bind
      (writei_spec member unshaped _ _ _ _
        (fun _ => writesEntry_direntBytes name aligned exists_))
      (fun written => ?_)
    apply Triple.ite
    · intro _
      exact Triple.pure (fun _ holds => holds)
    · intro _
      exact Triple.pure (fun _ holds => holds)
  · refine Triple.bind (Triple.strengthen (Triple.exists_pre fun number =>
      iput_spec ⟨ip, number, none⟩ unshaped.allowsFree)
      (fun _ => And.left)) (fun _ => ?_)
    exact Triple.pure (fun _ holds => holds)

end Entries

/-! ## Walking a path -/

/-- The current directory of the process is held. -/
def CwdHeld (frame : Frame) (held : List Hold) (p : Nat) : Prop :=
  ∀ cwd, (frame.proc p).cwd = some cwd → ∃ hold ∈ held, hold.slot = cwd

theorem CwdHeld.cons {p : Nat} (cwd : CwdHeld frame held p) (hold : Hold) :
    CwdHeld frame (hold :: held) p := by
  intro ip current
  rcases cwd ip current with ⟨found, member, slot⟩
  exact ⟨found, List.mem_cons_of_mem _ member, slot⟩

/-- The result of `namex`: nothing, or a new reference and an element. -/
def Walked (k : Kernel) (frame : Frame) (held : List Hold) :
    Option (Nat × Name) → Fs → Prop
  | none, state => Inv k frame held state
  | some (ip, _), state => ∃ inum loaded,
      Inv k frame (⟨ip, inum, loaded⟩ :: held) state

/-- The result of `namei`: nothing, or a new reference. -/
def Resolved (k : Kernel) (frame : Frame) (held : List Hold) :
    Option Nat → Fs → Prop
  | none, state => Inv k frame held state
  | some ip, state => ∃ inum loaded,
      Inv k frame (⟨ip, inum, loaded⟩ :: held) state

theorem namexLoop_spec (frees : frame.AllowsFree) (parent : Bool)
    {ip inum : Nat} {loaded : Option (BitVec 16)} (name : Name)
    (names : List Name) :
    Triple (Inv k frame (⟨ip, inum, loaded⟩ :: held))
      (namexLoop k parent ip name names)
      (Walked k frame held) := by
  induction names generalizing ip inum loaded name with
  | nil =>
      apply Triple.ite
      · intro _
        refine Triple.bind (iput_spec ⟨ip, inum, loaded⟩ frees)
          (fun _ => ?_)
        exact Triple.pure (fun _ holds => holds)
      · intro _
        exact Triple.pure (fun _ holds => ⟨_, _, holds⟩)
  | cons next rest induction =>
      refine Triple.bind ilock_exists (fun _ => ?_)
      apply Triple.exists_pre
      intro type
      have stop :
          Triple (Inv k frame (⟨ip, inum, some type⟩ :: held))
            (do iunlockput k ip; return none)
            (Walked k frame held) :=
        Triple.bind (iunlockput_spec ⟨ip, inum, some type⟩ frees)
          (fun _ => Triple.pure (fun _ holds => holds))
      refine Triple.bind (inodeAt_spec ip) (fun inode => ?_)
      refine Triple.strengthen ?_ (fun _ => And.left)
      apply Triple.ite
      · exact fun _ => stop
      · intro _
        apply Triple.ite
        · intro _
          refine Triple.bind (iunlock_spec ip) (fun _ => ?_)
          exact Triple.pure (fun _ holds => ⟨_, _, holds⟩)
        · intro _
          refine Triple.bind (dirlookup_spec List.mem_cons_self next)
            (fun result => ?_)
          apply Triple.and_pre
          intro _
          rcases result with _ | ⟨jp, off⟩
          · exact stop
          · refine Triple.strengthen ?_ (fun _ => And.left)
            apply Triple.exists_pre
            intro number
            refine Triple.bind
              ((iunlockput_spec ⟨ip, inum, some type⟩ frees).strengthen
                fun _ => Inv.swap)
              (fun _ => ?_)
            exact induction next

theorem startInode_spec {p : Nat} (cwd : CwdHeld frame held p)
    (path : Path) :
    Triple (Inv k frame held) (startInode k p path)
      (fun ip state => ∃ inum,
        Inv k frame (⟨ip, inum, none⟩ :: held) state) := by
  apply Triple.ite
  · intro _
    exact (iget_spec k.sb.rootExists).weaken (fun _ _ holds => ⟨_, holds⟩)
  · intro _
    refine Triple.bind Triple.get (fun state => ?_)
    cases current : (state.proc p).cwd with
    | none => exact Triple.throw
    | some ip =>
        apply Triple.at_state
        rintro before ⟨inv, rfl⟩
        have frame_proc : state.proc = frame.proc := by
          rcases inv with ⟨own, good⟩
          exact good.proc
        rcases cwd ip (frame_proc ▸ current) with ⟨hold, member, rfl⟩
        refine (idup_spec member).consequence ?_
          (fun _ _ holds => ⟨_, holds⟩)
        rintro _ rfl
        exact inv

theorem namex_spec (frees : frame.AllowsFree) {p : Nat}
    (cwd : CwdHeld frame held p) (path : Path) (parent : Bool) :
    Triple (Inv k frame held) (namex k p path parent)
      (Walked k frame held) := by
  refine Triple.bind (startInode_spec cwd path) (fun ip => ?_)
  apply Triple.exists_pre
  intro inum
  exact namexLoop_spec frees parent [] (elements path)

/-- `namei` gives a reference to the inode of a path. -/
theorem namei_spec (frees : frame.AllowsFree) {p : Nat}
    (cwd : CwdHeld frame held p) (path : Path) :
    Triple (Inv k frame held) (namei k p path)
      (Resolved k frame held) := by
  refine Triple.bind (namex_spec frees cwd path false) (fun result => ?_)
  apply Triple.pure
  cases result with
  | none => exact fun _ holds => holds
  | some pair => exact fun _ holds => holds

/-- `nameiparent` gives a reference to the directory of a path. -/
theorem nameiparent_spec (frees : frame.AllowsFree) {p : Nat}
    (cwd : CwdHeld frame held p) (path : Path) :
    Triple (Inv k frame held) (nameiparent k p path)
      (Walked k frame held) :=
  namex_spec frees cwd path true

end OSCourse.FileSystem
