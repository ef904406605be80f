import OSCourse.FileSystem.OpenMode
import OSCourse.FileSystem.Revocation

/-!
# What a call gives back

A call takes references to inodes, sleep locks, and places in the log, and owes
them until it gives them back.  The account of what is owed is kept along every
path through `sys_open`, `sys_chmod`, `sys_getperm` and `exec`: whichever exit
is taken, nothing is owed at the end but the reference of a file that was
opened.
-/

namespace OSCourse.FileSystem

open OSCourse.Library.ByteBlock
open OSCourse.Library.Hoare

/--
What was taken since `base` and not yet given back: a reference for each entry
of `refs`, the lock of each entry of `locks`, and `ops` places in the log.
-/
structure Owes (base : Fs) (refs locks : List Nat) (ops : Nat)
    (state : Fs) : Prop where
  ref : ∀ ip, (state.inode ip).ref = (base.inode ip).ref + refs.count ip
  inum : ∀ ip, 0 < (base.inode ip).ref →
    (state.inode ip).inum = (base.inode ip).inum
  locked : ∀ ip, (state.inode ip).locked =
    ((base.inode ip).locked || decide (ip ∈ locks))
  free : ∀ ip ∈ locks, (base.inode ip).locked = false
  nodup : locks.Nodup
  outstanding : state.outstanding = base.outstanding + ops
  file : state.file = base.file
  proc : state.proc = base.proc

/--
A call left the references, the locks and the log as it found them, except for
one more reference to the inode `opened`.
-/
structure Balanced (opened : Option Nat) (before after : Fs) : Prop where
  ref : ∀ ip, (after.inode ip).ref =
    (before.inode ip).ref + if opened = some ip then 1 else 0
  inum : ∀ ip, 0 < (before.inode ip).ref →
    (after.inode ip).inum = (before.inode ip).inum
  locked : ∀ ip, (after.inode ip).locked = (before.inode ip).locked
  outstanding : after.outstanding = before.outstanding

/-- An open that fails gives everything back and leaves the descriptors alone;
one that succeeds keeps one reference, for the file of the new descriptor. -/
def OpenBalanced (p : Nat) (before : Fs) (result : Int) (after : Fs) : Prop :=
  (result = -1 ∧ Balanced none before after ∧ after.proc = before.proc) ∨
    ∃ fd f : Nat, result = fd ∧ (after.proc p).ofile fd = some f ∧
      Balanced (some (after.file f).ip) before after

namespace Fs

/-- Replace an entry of the file table. -/
def withFile (state : Fs) (f : Nat) (file : File) : Fs :=
  { state with file := Function.update state.file f file }

/-- Replace a descriptor of a process. -/
def withFd (state : Fs) (p fd : Nat) (entry : Option Nat) : Fs :=
  { state with
    proc := Function.update state.proc p
      { state.proc p with
        ofile := Function.update (state.proc p).ofile fd entry } }

end Fs

/-- The entry that `filealloc` would find is of type `FD_NONE`. -/
def FreshFile (k : Kernel) (state : Fs) : Prop :=
  ∀ f, k.filealloc state.file = some f → (state.file f).type = .none

variable {k : Kernel} {base : Fs} {refs locks : List Nat} {ops p ip dp : Nat}

namespace Owes

/-! ## Changes of an entry -/

theorem refl (state : Fs) : Owes state [] [] 0 state where
  ref _ := rfl
  inum _ _ := rfl
  locked _ := by simp
  free _ inside := absurd inside List.not_mem_nil
  nodup := List.nodup_nil
  outstanding := rfl
  file := rfl
  proc := rfl

theorem perm {refs' locks' : List Nat} {state : Fs}
    (owes : Owes base refs locks ops state) (sameRefs : refs.Perm refs')
    (sameLocks : locks.Perm locks') : Owes base refs' locks' ops state where
  ref ip := by rw [owes.ref, sameRefs.count_eq]
  inum := owes.inum
  locked ip := by
    rw [owes.locked, decide_eq_decide.mpr sameLocks.mem_iff]
  free ip inside := owes.free ip (sameLocks.mem_iff.mpr inside)
  nodup := sameLocks.nodup_iff.mp owes.nodup
  outstanding := owes.outstanding
  file := owes.file
  proc := owes.proc

/-- A change of one entry, and of what is owed for it. -/
theorem withInode {refs' locks' : List Nat} {state : Fs}
    {change : Inode → Inode} (owes : Owes base refs locks ops state)
    (ref : (change (state.inode ip)).ref =
      (base.inode ip).ref + refs'.count ip)
    (inum : 0 < (base.inode ip).ref →
      (change (state.inode ip)).inum = (base.inode ip).inum)
    (locked : (change (state.inode ip)).locked =
      ((base.inode ip).locked || decide (ip ∈ locks')))
    (others : ∀ jp, jp ≠ ip →
      refs'.count jp = refs.count jp ∧ (jp ∈ locks' ↔ jp ∈ locks))
    (free : ∀ jp ∈ locks', (base.inode jp).locked = false)
    (nodup : locks'.Nodup) :
    Owes base refs' locks' ops (state.withInode ip change) where
  ref jp := by
    by_cases same : jp = ip
    · subst same
      simpa [Fs.withInode] using ref
    · simpa [Fs.withInode, same, (others jp same).1] using owes.ref jp
  inum jp used := by
    by_cases same : jp = ip
    · subst same
      simpa [Fs.withInode] using inum used
    · simpa [Fs.withInode, same] using owes.inum jp used
  locked jp := by
    by_cases same : jp = ip
    · subst same
      simpa [Fs.withInode] using locked
    · simpa [Fs.withInode, same, (others jp same).2] using owes.locked jp
  free := free
  nodup := nodup
  outstanding := owes.outstanding
  file := owes.file
  proc := owes.proc

/-- A change of the count of one entry. -/
theorem withRef {refs' : List Nat} {state : Fs} {change : Inode → Inode}
    (owes : Owes base refs locks ops state)
    (ref : (change (state.inode ip)).ref =
      (base.inode ip).ref + refs'.count ip)
    (others : ∀ jp, jp ≠ ip → refs'.count jp = refs.count jp)
    (inum : 0 < (base.inode ip).ref →
      (change (state.inode ip)).inum = (state.inode ip).inum)
    (locked : (change (state.inode ip)).locked = (state.inode ip).locked) :
    Owes base refs' locks ops (state.withInode ip change) :=
  owes.withInode ref (fun used => (inum used).trans (owes.inum ip used))
    (locked.trans (owes.locked ip))
    (fun jp apart => ⟨others jp apart, Iff.rfl⟩) owes.free owes.nodup

/-- A change of the lock of one entry. -/
theorem withLock {locks' : List Nat} {state : Fs} {taken : Bool}
    (owes : Owes base refs locks ops state)
    (locked : taken = ((base.inode ip).locked || decide (ip ∈ locks')))
    (others : ∀ jp, jp ≠ ip → (jp ∈ locks' ↔ jp ∈ locks))
    (free : ∀ jp ∈ locks', (base.inode jp).locked = false)
    (nodup : locks'.Nodup) :
    Owes base refs locks' ops
      (state.withInode ip fun inode => { inode with locked := taken }) :=
  owes.withInode (owes.ref ip) (owes.inum ip) locked
    (fun jp apart => ⟨rfl, others jp apart⟩) free nodup

/-- Neither a block nor a field copied from disk is counted. -/
theorem stable : Stable (Owes base refs locks ops) where
  block _ _ _ owes := { owes with }
  edit _ ip _ owes :=
    owes.withRef (owes.ref ip) (fun _ _ => rfl) (fun _ => rfl) rfl

/-! ## References and locks -/

theorem iget (inum : Nat) :
    Triple (Owes base refs locks ops) (iget k inum)
      (fun ip => Owes base (ip :: refs) locks ops) := by
  have others : ∀ ip jp : Nat, jp ≠ ip →
      (ip :: refs).count jp = refs.count jp :=
    fun ip jp apart => List.count_cons_of_ne (Ne.symm apart)
  rintro state owes ip after run
  rw [iget_run] at run
  split at run
  · cases run
    refine owes.withRef ?_ (others _) (fun _ => rfl) rfl
    rw [List.count_cons_self, owes.ref, Nat.add_assoc]
  · split at run
    · cases run
    · next found =>
      cases run
      have free := List.find?_some found
      simp only [decide_eq_true_eq] at free
      have counted := owes.ref ip
      refine owes.withRef ?_ (others _) (fun used => ?_) rfl
      · rw [List.count_cons_self]
        show 1 = _
        omega
      · omega

theorem idup (ip : Nat) :
    Triple (Owes base refs locks ops) (idup ip)
      (fun ip => Owes base (ip :: refs) locks ops) := by
  rintro state owes ip after ⟨⟩
  refine owes.withRef ?_ ?_ (fun _ => rfl) rfl
  · rw [List.count_cons_self, owes.ref, Nat.add_assoc]
  · exact fun jp apart => List.count_cons_of_ne (Ne.symm apart)

theorem acquiresleep :
    Triple (Owes base refs locks ops) (acquiresleep ip)
      (fun _ => Owes base refs (ip :: locks) ops) := by
  intro state owes _ after run
  rw [acquiresleep_run] at run
  split at run
  · cases run
  · next unlocked =>
    cases run
    have both := owes.locked ip
    rw [Bool.not_eq_true] at unlocked
    rw [unlocked, eq_comm, Bool.or_eq_false_iff, decide_eq_false_iff_not]
      at both
    refine owes.withLock (by simp) ?_ ?_ ?_
    · exact fun jp apart => by simp [apart]
    · intro jp inside
      rcases List.mem_cons.mp inside with rfl | inside
      · exact both.1
      · exact owes.free jp inside
    · exact List.nodup_cons.mpr ⟨both.2, owes.nodup⟩

theorem releasesleep :
    Triple (Owes base refs (ip :: locks) ops) (releasesleep ip)
      (fun _ => Owes base refs locks ops) := by
  apply Triple.modify
  intro state owes
  rcases List.nodup_cons.mp owes.nodup with ⟨outside, nodup⟩
  refine owes.withLock ?_ ?_ ?_ nodup
  · simp [owes.free ip List.mem_cons_self, outside]
  · exact fun jp apart => by simp [apart]
  · exact fun jp inside => owes.free jp (List.mem_cons_of_mem _ inside)

theorem ilock :
    Triple (Owes base refs locks ops) (ilock k ip)
      (fun _ => Owes base refs (ip :: locks) ops) := by
  refine Triple.bind (Stable.inodeAt ip) (fun inode => ?_)
  refine Triple.ite (fun _ => Triple.throw) (fun _ => ?_)
  refine Triple.bind acquiresleep (fun _ => ?_)
  refine Triple.bind (Stable.inodeAt ip) (fun inode => ?_)
  refine Triple.ite (fun _ => Triple.keep _) (fun _ => ?_)
  refine Triple.bind (Stable.bread _) (fun bytes => ?_)
  have loaded : Triple (Owes base refs (ip :: locks) ops)
      (setInode ip fun entry =>
        { entry with
          copy := readDinode bytes (inode.inum % ipb), valid := true })
      (fun _ => Owes base refs (ip :: locks) ops) :=
    Triple.modify fun state owes =>
      owes.withRef (owes.ref ip) (fun _ _ => rfl) (fun _ => rfl) rfl
  refine Triple.bind loaded (fun _ => ?_)
  exact Triple.ite (fun _ => Triple.throw) (fun _ => Triple.keep _)

theorem iunlock :
    Triple (Owes base refs (ip :: locks) ops) (iunlock ip)
      (fun _ => Owes base refs locks ops) := by
  refine Triple.bind (Stable.inodeAt ip) (fun inode => ?_)
  exact Triple.ite (fun _ => Triple.throw) (fun _ => releasesleep)

theorem dropRef :
    Triple (Owes base (ip :: refs) locks ops)
      (setInode ip fun inode => { inode with ref := inode.ref - 1 })
      (fun _ => Owes base refs locks ops) := by
  apply Triple.modify
  intro state owes
  have counted := owes.ref ip
  rw [List.count_cons_self] at counted
  refine owes.withRef ?_ ?_ (fun _ => rfl) rfl
  · show (state.inode ip).ref - 1 = _
    omega
  · exact fun jp apart => (List.count_cons_of_ne (Ne.symm apart)).symm

/-- `iput` gives back a reference, whether or not it frees the inode. -/
theorem iput :
    Triple (Owes base (ip :: refs) locks ops) (iput k ip)
      (fun _ => Owes base refs locks ops) := by
  refine Triple.bind (Stable.inodeAt ip) (fun inode => ?_)
  refine Triple.ite (fun _ => ?_) (fun _ => dropRef)
  refine Triple.bind acquiresleep (fun _ => ?_)
  refine Triple.bind stable.itrunc (fun _ => ?_)
  refine Triple.bind (stable.setCopy _) (fun _ => ?_)
  refine Triple.bind stable.iupdate (fun _ => ?_)
  have invalid : Triple (Owes base (ip :: refs) (ip :: locks) ops)
      (setInode ip fun inode => { inode with valid := false })
      (fun _ => Owes base (ip :: refs) (ip :: locks) ops) :=
    Triple.modify fun state owes =>
      owes.withRef (owes.ref ip) (fun _ _ => rfl) (fun _ => rfl) rfl
  refine Triple.bind invalid (fun _ => ?_)
  exact Triple.bind releasesleep (fun _ => dropRef)

theorem iunlockput :
    Triple (Owes base (ip :: refs) (ip :: locks) ops) (iunlockput k ip)
      (fun _ => Owes base refs locks ops) :=
  Triple.bind iunlock (fun _ => iput)

/-! ## Directories and paths -/

theorem lookupLoop (name : Name) (left off : Nat) :
    Triple (Owes base refs locks ops) (lookupLoop k dp name left off)
      (fun result =>
        Owes base ((result.map Prod.fst).toList ++ refs) locks ops) := by
  induction left generalizing off with
  | zero => exact Triple.pure (fun _ owes => owes)
  | succ left induction =>
      refine Triple.bind (stable.readDirent _ _) (fun entry => ?_)
      refine Triple.ite (fun _ => induction _) (fun _ => ?_)
      refine Triple.ite (fun _ => ?_) (fun _ => induction _)
      refine Triple.bind (iget _) (fun ip => ?_)
      exact Triple.pure (fun _ owes => owes)

theorem dirlookup (name : Name) :
    Triple (Owes base refs locks ops) (dirlookup k dp name)
      (fun result =>
        Owes base ((result.map Prod.fst).toList ++ refs) locks ops) := by
  refine Triple.bind (Stable.inodeAt dp) (fun inode => ?_)
  exact Triple.ite (fun _ => Triple.throw) (fun _ => lookupLoop name _ _)

theorem dirlink (name : Name) (inum : Nat) :
    Triple (Owes base refs locks ops) (dirlink k dp name inum)
      (fun _ => Owes base refs locks ops) := by
  refine Triple.bind (dirlookup name) (fun result => ?_)
  rcases result with _ | ⟨ip, off⟩
  · refine Triple.bind (Stable.inodeAt dp) (fun inode => ?_)
    refine Triple.bind (stable.emptyLoop _ _) (fun off => ?_)
    refine Triple.bind (stable.writei _ _ _ _) (fun written => ?_)
    exact Triple.ite (fun _ => Triple.keep _) (fun _ => Triple.keep _)
  · refine Triple.bind iput (fun _ => ?_)
    exact Triple.keep _

/-- A walk holds one reference and, inside a directory, its lock. -/
theorem namexLoop (parent : Bool) (name : Name) (names : List Name) :
    Triple (Owes base (ip :: refs) locks ops)
      (namexLoop k parent ip name names)
      (fun result =>
        Owes base ((result.map Prod.fst).toList ++ refs) locks ops) := by
  induction names generalizing ip name with
  | nil =>
      refine Triple.ite (fun _ => ?_)
        (fun _ => Triple.pure (fun _ owes => owes))
      refine Triple.bind iput (fun _ => ?_)
      exact Triple.pure (fun _ owes => owes)
  | cons next rest induction =>
      have stop : Triple (Owes base (ip :: refs) (ip :: locks) ops)
          (do FileSystem.iunlockput k ip; return none)
          (fun result : Option (Nat × Name) =>
            Owes base ((result.map Prod.fst).toList ++ refs) locks ops) :=
        Triple.bind iunlockput (fun _ => Triple.pure (fun _ owes => owes))
      refine Triple.bind ilock (fun _ => ?_)
      refine Triple.bind (Stable.inodeAt ip) (fun inode => ?_)
      refine Triple.ite (fun _ => stop) (fun _ => ?_)
      refine Triple.ite (fun _ => ?_) (fun _ => ?_)
      · refine Triple.bind iunlock (fun _ => ?_)
        exact Triple.pure (fun _ owes => owes)
      · refine Triple.bind (dirlookup next) (fun result => ?_)
        rcases result with _ | ⟨jp, off⟩
        · exact stop
        · refine Triple.bind (iunlockput.strengthen fun _ owes =>
            owes.perm (.swap _ _ _) (.refl _)) (fun _ => ?_)
          exact induction next

theorem startInode (path : Path) :
    Triple (Owes base refs locks ops) (startInode k p path)
      (fun ip => Owes base (ip :: refs) locks ops) := by
  refine Triple.ite (fun _ => iget _) (fun _ => ?_)
  refine Triple.bind (Triple.get.weaken fun _ _ => And.left)
    (fun state => ?_)
  cases (state.proc p).cwd with
  | none => exact Triple.throw
  | some cwd => exact idup cwd

theorem namex (path : Path) (parent : Bool) :
    Triple (Owes base refs locks ops) (namex k p path parent)
      (fun result =>
        Owes base ((result.map Prod.fst).toList ++ refs) locks ops) :=
  Triple.bind (startInode path) (fun _ => namexLoop parent [] _)

/-- `namei` takes a reference to the inode it finds, and nothing else. -/
theorem namei (path : Path) :
    Triple (Owes base refs locks ops) (namei k p path)
      (fun result => Owes base (result.toList ++ refs) locks ops) :=
  Triple.bind (namex path false)
    (fun _ => Triple.pure (fun _ owes => owes))

/-! ## Creating -/

theorem ialloc (type : BitVec 16) :
    Triple (Owes base refs locks ops) (ialloc k type)
      (fun result => Owes base (result.toList ++ refs) locks ops) := by
  intro state owes result after run
  rw [ialloc_run] at run
  split at run
  · cases run
    exact owes
  · rcases bind_eq_ok.mp run with ⟨ip, _, taken, ⟨⟩⟩
    refine iget _ _ ?_ ip _ taken
    exact { owes with }

theorem createDots (type : BitVec 16) :
    Triple (Owes base refs locks ops) (createDots k dp ip type)
      (fun _ => Owes base refs locks ops) := by
  refine Triple.ite (fun _ => ?_) (fun _ => Triple.keep _)
  refine Triple.bind (Stable.inodeAt ip) (fun inode => ?_)
  refine Triple.bind (dirlink _ _) (fun linked => ?_)
  refine Triple.ite (fun _ => Triple.keep _) (fun _ => ?_)
  refine Triple.bind (Stable.inodeAt dp) (fun parent => ?_)
  refine Triple.bind (dirlink _ _) (fun linked => ?_)
  exact Triple.ite (fun _ => Triple.keep _) (fun _ => Triple.keep _)

theorem createParent (type : BitVec 16) :
    Triple (Owes base refs locks ops) (createParent k dp type)
      (fun _ => Owes base refs locks ops) := by
  refine Triple.ite (fun _ => ?_) (fun _ => Triple.keep _)
  exact Triple.bind (stable.setCopy _) (fun _ => stable.iupdate)

theorem createFail :
    Triple (Owes base (ip :: dp :: refs) (ip :: dp :: locks) ops)
      (createFail k dp ip)
      (fun result =>
        Owes base (result.toList ++ refs) (result.toList ++ locks) ops) := by
  refine Triple.bind (stable.setCopy _) (fun _ => ?_)
  refine Triple.bind stable.iupdate (fun _ => ?_)
  refine Triple.bind iunlockput (fun _ => ?_)
  refine Triple.bind iunlockput (fun _ => ?_)
  exact Triple.pure (fun _ owes => owes)

/-- The parent is left and the new inode stays locked, or both are left. -/
theorem createNew (name : Name) (type major minor : BitVec 16) :
    Triple (Owes base (ip :: dp :: refs) (dp :: locks) ops)
      (createNew k dp ip name type major minor)
      (fun result =>
        Owes base (result.toList ++ refs) (result.toList ++ locks) ops) := by
  refine Triple.bind ilock (fun _ => ?_)
  refine Triple.bind (stable.setCopy _) (fun _ => ?_)
  refine Triple.bind stable.iupdate (fun _ => ?_)
  refine Triple.bind (createDots type) (fun dots => ?_)
  refine Triple.ite (fun _ => createFail) (fun _ => ?_)
  refine Triple.bind (Stable.inodeAt ip) (fun inode => ?_)
  refine Triple.bind (dirlink _ _) (fun linked => ?_)
  refine Triple.ite (fun _ => createFail) (fun _ => ?_)
  refine Triple.bind (createParent type) (fun _ => ?_)
  refine Triple.bind (iunlockput.strengthen fun _ owes =>
    owes.perm (.swap _ _ _) (.swap _ _ _)) (fun _ => ?_)
  exact Triple.pure (fun _ owes => owes)

theorem createFound (type : BitVec 16) :
    Triple (Owes base (ip :: dp :: refs) (dp :: locks) ops)
      (createFound k dp ip type)
      (fun result =>
        Owes base (result.toList ++ refs) (result.toList ++ locks) ops) := by
  refine Triple.bind (iunlockput.strengthen fun _ owes =>
    owes.perm (.swap _ _ _) (.refl _)) (fun _ => ?_)
  refine Triple.bind ilock (fun _ => ?_)
  refine Triple.bind (Stable.inodeAt ip) (fun inode => ?_)
  refine Triple.ite (fun _ => Triple.pure (fun _ owes => owes)) (fun _ => ?_)
  refine Triple.bind iunlockput (fun _ => ?_)
  exact Triple.pure (fun _ owes => owes)

/-- `create` takes a reference and the lock of the inode it returns. -/
theorem create (path : Path) (type major minor : BitVec 16) :
    Triple (Owes base refs locks ops) (create k p path type major minor)
      (fun result =>
        Owes base (result.toList ++ refs) (result.toList ++ locks) ops) := by
  refine Triple.bind (namex path true) (fun parent => ?_)
  rcases parent with _ | ⟨dp, name⟩
  · exact Triple.pure (fun _ owes => owes)
  refine Triple.bind ilock (fun _ => ?_)
  refine Triple.bind (dirlookup name) (fun found => ?_)
  rcases found with _ | ⟨ip, off⟩
  · refine Triple.bind (ialloc type) (fun fresh => ?_)
    cases fresh with
    | none =>
        refine Triple.bind iunlockput (fun _ => ?_)
        exact Triple.pure (fun _ owes => owes)
    | some ip => exact createNew name type major minor
  · exact createFound type

/-! ## Opening -/

/-- `begin_op` takes a place in the log. -/
theorem beginOp :
    Triple (Owes base refs locks ops) beginOp
      (fun _ => Owes base refs locks (ops + 1)) := by
  apply Triple.modify
  intro state owes
  exact { owes with outstanding := congrArg (· + 1) owes.outstanding }

/-- `end_op` gives a place in the log back. -/
theorem endOp :
    Triple (Owes base refs locks (ops + 1)) endOp
      (fun _ => Owes base refs locks ops) := by
  apply Triple.modify
  intro state owes
  exact { owes with outstanding := congrArg (· - 1) owes.outstanding }

theorem openInode (path : Path) (omode : BitVec 32) :
    Triple (Owes base refs locks ops) (openInode k p path omode)
      (fun result =>
        Owes base (result.toList ++ refs) (result.toList ++ locks) ops) := by
  refine Triple.ite (fun _ => create path _ _ _) (fun _ => ?_)
  refine Triple.bind (namei path) (fun found => ?_)
  cases found with
  | none => exact Triple.pure (fun _ owes => owes)
  | some ip =>
      refine Triple.bind ilock (fun _ => ?_)
      refine Triple.bind (Stable.inodeAt ip) (fun inode => ?_)
      refine Triple.ite (fun _ => ?_)
        (fun _ => Triple.pure (fun _ owes => owes))
      refine Triple.bind iunlockput (fun _ => ?_)
      exact Triple.pure (fun _ owes => owes)

theorem openBad :
    Triple (Owes base (ip :: refs) (ip :: locks) (ops + 1)) (openBad k ip)
      (fun result state => result = -1 ∧ Owes base refs locks ops state) := by
  refine Triple.bind iunlockput (fun _ => ?_)
  refine Triple.bind endOp (fun _ => ?_)
  exact Triple.pure (fun _ owes => ⟨rfl, owes⟩)

theorem setFile (f : Nat) (change : File → File) :
    Triple (Owes base refs locks ops) (setFile f change)
      (fun _ => Owes (base.withFile f (change (base.file f))) refs locks
        ops) := by
  apply Triple.modify
  intro state owes
  refine { owes with file := ?_ }
  simp only [Fs.withFile, owes.file]

theorem setFd (fd : Nat) (entry : Option Nat) :
    Triple (Owes base refs locks ops) (setFd p fd entry)
      (fun _ => Owes (base.withFd p fd entry) refs locks ops) := by
  apply Triple.modify
  intro state owes
  refine { owes with proc := ?_ }
  simp only [Fs.withFd, owes.proc]

/-- `fileclose` of a file that was never given an inode. -/
theorem fileclose {f : Nat} (one : (base.file f).ref = 1)
    (fresh : (base.file f).type = .none) :
    Triple (Owes base refs locks ops) (fileclose k f)
      (fun _ => Owes
        (base.withFile f { base.file f with ref := 0, type := .none })
        refs locks ops) := by
  rintro state owes result after run
  rcases bind_eq_ok.mp run with ⟨file, _, ⟨⟩, run⟩
  rw [congrFun owes.file f, if_neg (by omega), if_neg (by omega)] at run
  rcases bind_eq_ok.mp run with ⟨_, closed, set, run⟩
  rw [if_pos fresh] at run
  cases run
  exact setFile f _ state owes _ _ set

/-- `filealloc` takes an entry of the file table. -/
theorem filealloc :
    Triple (Owes base refs locks ops) (filealloc k)
      (fun result state =>
        match result with
        | none => Owes base refs locks ops state
        | some f =>
            Owes (base.withFile f { base.file f with ref := 1 })
              refs locks ops state ∧
            k.filealloc base.file = some f) := by
  intro state owes result after run
  rw [filealloc_run, owes.file] at run
  split at run
  · cases run
    exact owes
  · next f found =>
    rcases bind_eq_ok.mp run with ⟨_, between, set, ⟨⟩⟩
    exact ⟨setFile f _ state owes _ _ set, found⟩

/-- `fdalloc` takes a descriptor of the process. -/
theorem fdalloc (f : Nat) :
    Triple (Owes base refs locks ops) (fdalloc k p f)
      (fun result state =>
        match result with
        | none => Owes base refs locks ops state
        | some fd =>
            Owes (base.withFd p fd (some f)) refs locks ops state) := by
  intro state owes result after run
  rw [fdalloc_run] at run
  split at run
  · cases run
    exact owes
  · rcases bind_eq_ok.mp run with ⟨_, between, set, ⟨⟩⟩
    exact setFd _ _ state owes _ _ set

theorem openTrunc (omode : BitVec 32) :
    Triple (Owes base refs locks ops) (openTrunc k ip omode)
      (fun _ => Owes base refs locks ops) := by
  refine Triple.bind (Stable.inodeAt ip) (fun inode => ?_)
  exact Triple.ite (fun _ => stable.itrunc) (fun _ => Triple.keep _)

/-- The new file keeps the reference of the inode; the lock and the place in
the log are given back. -/
theorem openFile (f fd : Nat) (omode : BitVec 32) :
    Triple (Owes base refs (ip :: locks) (ops + 1)) (openFile k ip f fd omode)
      (fun result state => result = fd ∧ ∃ file : File, file.ip = ip ∧
        Owes (base.withFile f file) refs locks ops state) := by
  refine Triple.bind (Stable.inodeAt ip) (fun inode => ?_)
  refine Triple.bind (setFile f _) (fun _ => ?_)
  refine Triple.bind (openTrunc omode) (fun _ => ?_)
  refine Triple.bind iunlock (fun _ => ?_)
  refine Triple.bind endOp (fun _ => ?_)
  exact Triple.pure (fun _ owes =>
    ⟨rfl, _, (openedFile_rights inode _).1, owes⟩)

/-! ## What is owed at the end -/

theorem balanced {state : Fs} (opened : Option Nat)
    (owes : Owes base opened.toList [] 0 state) :
    Balanced opened base state where
  ref ip := by
    rw [owes.ref]
    cases opened with
    | none => rfl
    | some jp => simp [List.count_singleton]
  inum := owes.inum
  locked ip := by simpa using owes.locked ip
  outstanding := owes.outstanding

end Owes

theorem openBad_balanced :
    Triple (Owes base [ip] [ip] 1) (openBad k ip) (OpenBalanced p base) :=
  Owes.openBad.weaken fun _ _ ⟨failed, owes⟩ =>
    .inl ⟨failed, owes.balanced none, owes.proc⟩

theorem openChecked_balanced (fresh : FreshFile k base)
    (omode : BitVec 32) :
    Triple (Owes base [ip] [ip] 1) (openChecked k p ip omode)
      (OpenBalanced p base) := by
  refine Triple.bind (Stable.inodeAt ip) (fun inode => ?_)
  refine Triple.ite (fun _ => openBad_balanced) (fun _ => ?_)
  refine Triple.ite (fun _ => openBad_balanced) (fun _ => ?_)
  refine Triple.bind Owes.filealloc (fun allocated => ?_)
  cases allocated with
  | none => exact openBad_balanced
  | some f =>
      apply Triple.and_pre
      intro found
      refine Triple.bind (Owes.fdalloc f) (fun assigned => ?_)
      cases assigned with
      | none =>
          refine Triple.bind (Owes.fileclose ?_ ?_) (fun _ => ?_)
          · simp [Fs.withFile]
          · simp [Fs.withFile, fresh f found]
          · refine Owes.openBad.weaken ?_
            rintro result state ⟨failed, owes⟩
            exact .inl ⟨failed, { owes.balanced none with }, owes.proc⟩
      | some fd =>
          refine (Owes.openFile f fd omode).weaken ?_
          rintro result state ⟨returned, file, rfl, owes⟩
          refine .inr ⟨fd, f, returned, ?_, ?_⟩
          · rw [owes.proc]
            simp [Fs.withFile, Fs.withFd]
          · rw [owes.file]
            simpa [Fs.withFile] using
              ({ owes.balanced (some _) with } : Balanced _ base state)

/-! ## The calls -/

theorem sysOpen_balanced (fresh : FreshFile k base) (path : Option Path)
    (omode : BitVec 32) :
    Triple (Owes base [] [] 0) (sysOpen k p path omode)
      (OpenBalanced p base) := by
  cases path with
  | none =>
      exact Triple.pure fun _ owes =>
        .inl ⟨rfl, owes.balanced none, owes.proc⟩
  | some path =>
      refine Triple.bind Owes.beginOp (fun _ => ?_)
      refine Triple.bind (Owes.openInode path omode) (fun opened => ?_)
      cases opened with
      | none =>
          refine Triple.bind Owes.endOp (fun _ => ?_)
          exact Triple.pure fun _ owes =>
            .inl ⟨rfl, owes.balanced none, owes.proc⟩
      | some ip => exact openChecked_balanced fresh omode

/-- The end of a call that holds nothing but its place in the log. -/
theorem endOp_balanced (result : Int) :
    Triple (Owes base [] [] 1) (do endOp; return result)
      (fun _ => Balanced none base) := by
  refine Triple.bind Owes.endOp (fun _ => ?_)
  exact Triple.pure fun _ owes => owes.balanced none

theorem sysChmod_balanced (path : Option Path) (mode : BitVec 32) :
    Triple (Owes base [] [] 0) (sysChmod k p path mode)
      (fun _ => Balanced none base) := by
  cases path with
  | none => exact Triple.pure fun _ owes => owes.balanced none
  | some path =>
      refine Triple.bind Owes.beginOp (fun _ => ?_)
      refine Triple.bind (Owes.namei path) (fun found => ?_)
      cases found with
      | none => exact endOp_balanced _
      | some ip =>
          refine Triple.bind Owes.ilock (fun _ => ?_)
          refine Triple.bind (Owes.stable.setCopy _) (fun _ => ?_)
          refine Triple.bind Owes.stable.iupdate (fun _ => ?_)
          refine Triple.bind (Stable.inodeAt ip) (fun inode => ?_)
          have recorded : Triple (Owes base [ip] [ip] 1)
              (modify fun current =>
                current.record (.chmod inode.inum mode) : FsM Unit)
              (fun _ => Owes base [ip] [ip] 1) :=
            Triple.modify fun _ owes => { owes with }
          refine Triple.bind recorded (fun _ => ?_)
          refine Triple.bind Owes.iunlock (fun _ => ?_)
          exact Triple.bind Owes.iput (fun _ => endOp_balanced _)

theorem sysGetperm_balanced (path : Option Path) :
    Triple (Owes base [] [] 0) (sysGetperm k p path)
      (fun _ => Balanced none base) := by
  cases path with
  | none => exact Triple.pure fun _ owes => owes.balanced none
  | some path =>
      refine Triple.bind Owes.beginOp (fun _ => ?_)
      refine Triple.bind (Owes.namei path) (fun found => ?_)
      cases found with
      | none => exact endOp_balanced _
      | some ip =>
          refine Triple.bind Owes.ilock (fun _ => ?_)
          refine Triple.bind (Stable.inodeAt ip) (fun inode => ?_)
          refine Triple.bind Owes.iunlock (fun _ => ?_)
          exact Triple.bind Owes.iput (fun _ => endOp_balanced _)

theorem exec_balanced {vm : Vm} (path : Path) (argv : List (List Byte)) :
    Triple (fun machine : Machine vm => Owes base [] [] 0 machine.fs)
      (exec k p path argv)
      (fun _ machine => Balanced none base machine.fs) := by
  refine exec_rule (fun ip => Owes base [ip] [] 1)
    (fun ip => Owes base [ip] [ip] 1) Owes.beginOp ?_ ?_ ?_ ?_ ?_ argv
  · refine (Owes.namei path).weaken ?_
    rintro (_ | ip) after owes
    · exact owes
    · exact owes
  · exact fun ip => Owes.ilock
  · exact fun ip off n => Owes.stable.readi _ off n
  · exact fun ip => Owes.iunlockput
  · exact Owes.endOp.weaken (fun _ _ owes => owes.balanced none)

/--
In every state, whichever way `sys_open`, `sys_chmod`, `sys_getperm` or `exec`
returns: each `begin_op` has had its `end_op`, each lock is released, and each
inode has the references it had before the call, and one more if `sys_open`
opened it.  An open that fails leaves the descriptors as they were.
-/
theorem calls_balanced
    (vm : Vm)
    (k : Kernel)
    (machine : Machine vm)
    (p : Nat) :
    (FreshFile k machine.fs → ∀ path omode result next,
      sysOpen k p path omode machine.fs = .ok (result, next) →
        OpenBalanced p machine.fs result next) ∧
    (∀ path mode result next,
      sysChmod k p path mode machine.fs = .ok (result, next) →
        Balanced none machine.fs next) ∧
    (∀ path result next,
      sysGetperm k p path machine.fs = .ok (result, next) →
        Balanced none machine.fs next) ∧
    (∀ path argv result next,
      exec k p path argv machine = .ok (result, next) →
        Balanced none machine.fs next.fs) := by
  have start := Owes.refl machine.fs
  refine ⟨?_, ?_, ?_, ?_⟩
  · exact fun fresh path omode =>
      sysOpen_balanced fresh path omode machine.fs start
  · exact fun path mode => sysChmod_balanced path mode machine.fs start
  · exact fun path => sysGetperm_balanced path machine.fs start
  · exact fun path argv => exec_balanced path argv machine start

/-- In every run from a consistent disk a free entry of the file table is of
type `FD_NONE`. -/
theorem freshFile_of_reachable {vm : Vm} {disk : Disk}
    (consistent : Consistent k.sb disk) {machine : Machine vm}
    (reached : (machineSystem vm k disk).Reachable machine) :
    FreshFile k machine.fs := by
  rcases machine_ready consistent reached with
    ⟨frame, held, _, _, tables, own, good⟩
  intro f found
  have free := k.filealloc_free _ _ found
  rw [good.file] at free ⊢
  exact tables.closed_of_free free

theorem ok_of_execResult {vm : Vm} {run : Except Stop (Int × Machine vm)}
    {value : Int} (returned : execResult run = some value) :
    ∃ next, run = .ok (value, next) := by
  cases run with
  | error stop => cases returned
  | ok pair =>
      cases returned
      exact ⟨pair.2, rfl⟩

/-- A program that its owner may read and run, and its machine. -/
def runnable : Machine smallVm := programMachine 0o700

theorem runnable_reachable :
    (machineSystem smallVm smallKernel (smallDisk (smallFile 5 5 0))).Reachable
      runnable := by
  unfold runnable programMachine
  exact smallActions_reachable _ _

/-- All four calls return on that program. -/
theorem calls_balanced_runnable :
    ∃ opened changed read ran,
      (sysOpen smallKernel 0 (some smallPath) oRdonly runnable.fs =
          .ok (1, opened) ∧
        OpenBalanced 0 runnable.fs 1 opened) ∧
      (sysChmod smallKernel 0 (some smallPath) 0 runnable.fs =
          .ok (0, changed) ∧
        Balanced none runnable.fs changed) ∧
      (sysGetperm smallKernel 0 (some smallPath) runnable.fs =
          .ok (0o700, read) ∧
        Balanced none runnable.fs read) ∧
      exec smallKernel 0 smallPath [[102]] runnable = .ok (1, ran) ∧
        Balanced none runnable.fs ran.fs := by
  have fresh : FreshFile smallKernel runnable.fs :=
    freshFile_of_reachable smallDisk_consistent runnable_reachable
  rcases calls_balanced smallVm smallKernel runnable 0 with
    ⟨opens, chmods, getperms, execs⟩
  have values :
      returnedValue (sysOpen smallKernel 0 (some smallPath) oRdonly
          runnable.fs) = some 1 ∧
        returnedValue (sysChmod smallKernel 0 (some smallPath) 0
          runnable.fs) = some 0 ∧
        returnedValue (sysGetperm smallKernel 0 (some smallPath)
          runnable.fs) = some 0o700 ∧
        execResult (exec smallKernel 0 smallPath [[102]] runnable) =
          some 1 := by
    decide +kernel
  rcases values with ⟨openValue, chmodValue, getpermValue, execValue⟩
  rcases ok_of_returnedValue openValue with ⟨opened, openRun⟩
  rcases ok_of_returnedValue chmodValue with ⟨changed, chmodRun⟩
  rcases ok_of_returnedValue getpermValue with ⟨read, getpermRun⟩
  rcases ok_of_execResult execValue with ⟨ran, execRun⟩
  exact ⟨opened, changed, read, ran,
    ⟨openRun, opens fresh _ _ _ _ openRun⟩,
    ⟨chmodRun, chmods _ _ _ _ chmodRun⟩,
    ⟨getpermRun, getperms _ _ _ getpermRun⟩,
    execRun, execs _ _ _ _ execRun⟩

end OSCourse.FileSystem
