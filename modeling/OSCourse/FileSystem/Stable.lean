import OSCourse.FileSystem.Content

/-!
# What block writes leave alone

Allocating, freeing, reading, writing and truncating the content of an inode
writes blocks and edits the fields that an entry of the inode table copies from
disk.  A property that neither touches is kept by all of these functions.
-/

namespace OSCourse.FileSystem

open OSCourse.Library.ByteBlock
open OSCourse.Library.Hoare

/-- The property does not depend on the disk and on the copies of disk
inodes. -/
structure Stable (pre : Fs → Prop) : Prop where
  block : ∀ state block bytes, pre state → pre (state.withBlock block bytes)
  edit : ∀ state ip change, pre state →
    pre (state.withInode ip (Inode.edit change))

namespace Stable

variable {k : Kernel} {pre : Fs → Prop} {ip : Nat}

/-! ## Reading the state -/

theorem reads {α : Type} (view : Fs → α) :
    Triple pre (do return view (← get) : FsM α) (fun _ => pre) := by
  rintro before holds result after ⟨⟩
  exact holds

theorem inodeAt (ip : Nat) :
    Triple pre (inodeAt ip) (fun _ => pre) :=
  reads fun state => state.inode ip

theorem bread (block : Nat) :
    Triple pre (bread block) (fun _ => pre) :=
  reads fun state => state.disk block

section

variable (stable : Stable pre)
include stable

/-! ## Writing -/

theorem logWrite (block : Nat) (bytes : Bytes) :
    Triple pre (logWrite block bytes) (fun _ => pre) :=
  Triple.modify fun state => stable.block state block bytes

theorem setCopy (change : Dinode → Dinode) :
    Triple pre (setInode ip (Inode.edit change)) (fun _ => pre) :=
  Triple.modify fun state => stable.edit state ip change

theorem iupdate : Triple pre (iupdate k ip) (fun _ => pre) := by
  refine Triple.bind (inodeAt ip) (fun inode => ?_)
  refine Triple.bind (bread _) (fun bytes => ?_)
  exact stable.logWrite _ _

theorem balloc : Triple pre (balloc k) (fun _ => pre) := by
  intro before holds result after run
  rw [balloc_run] at run
  split at run
  · cases run
    exact holds
  · cases run
    exact stable.block _ _ _ (stable.block _ _ _ holds)

theorem bfree (block : Nat) :
    Triple pre (bfree k block) (fun _ => pre) := by
  refine Triple.bind (bread _) (fun bytes => ?_)
  apply Triple.ite
  · exact fun _ => stable.logWrite _ _
  · exact fun _ => Triple.throw

theorem allocAddr (place : Fin (ndirect + 1)) :
    Triple pre (allocAddr k ip place) (fun _ => pre) := by
  refine Triple.bind (inodeAt ip) (fun inode => ?_)
  apply Triple.ite
  · intro _
    refine Triple.bind stable.balloc (fun fresh => ?_)
    apply Triple.ite
    · exact fun _ => Triple.keep _
    · intro _
      refine Triple.bind (stable.setCopy _) (fun _ => ?_)
      exact Triple.keep _
  · exact fun _ => Triple.keep _

theorem bmap (bn : Nat) : Triple pre (bmap k ip bn) (fun _ => pre) := by
  unfold FileSystem.bmap
  split
  · exact stable.allocAddr _
  apply Triple.ite
  · intro _
    refine Triple.bind (stable.allocAddr _) (fun indirect => ?_)
    apply Triple.ite
    · exact fun _ => Triple.keep _
    intro _
    refine Triple.bind (bread _) (fun bytes => ?_)
    apply Triple.ite
    · intro _
      refine Triple.bind stable.balloc (fun fresh => ?_)
      apply Triple.ite
      · exact fun _ => Triple.keep _
      · intro _
        refine Triple.bind (stable.logWrite _ _) (fun _ => ?_)
        exact Triple.keep _
    · exact fun _ => Triple.keep _
  · exact fun _ => Triple.throw

/-! ## Truncating -/

theorem truncDirect (places : List (Fin ndirect)) :
    Triple pre (truncDirect k ip places) (fun _ => pre) := by
  induction places with
  | nil => exact Triple.keep _
  | cons place rest induction =>
      refine Triple.bind (inodeAt ip) (fun inode => ?_)
      apply Triple.ite
      · exact fun _ => induction
      · intro _
        refine Triple.bind (stable.bfree _) (fun _ => ?_)
        exact Triple.bind (stable.setCopy _) (fun _ => induction)

theorem truncEntries (bytes : Bytes) (places : List Nat) :
    Triple pre (truncEntries k bytes places) (fun _ => pre) := by
  induction places with
  | nil => exact Triple.keep _
  | cons place rest induction =>
      apply Triple.ite
      · exact fun _ => induction
      · intro _
        exact Triple.bind (stable.bfree _) (fun _ => induction)

theorem truncIndirect : Triple pre (truncIndirect k ip) (fun _ => pre) := by
  refine Triple.bind (inodeAt ip) (fun inode => ?_)
  apply Triple.ite
  · exact fun _ => Triple.keep _
  · intro _
    refine Triple.bind (bread _) (fun bytes => ?_)
    refine Triple.bind (stable.truncEntries bytes _) (fun _ => ?_)
    exact Triple.bind (stable.bfree _) (fun _ => stable.setCopy _)

theorem itrunc : Triple pre (itrunc k ip) (fun _ => pre) := by
  refine Triple.bind (stable.truncDirect _) (fun _ => ?_)
  refine Triple.bind stable.truncIndirect (fun _ => ?_)
  exact Triple.bind (stable.setCopy _) (fun _ => stable.iupdate)

/-! ## Reading and writing content -/

theorem readLoop (copyout : Nat → Bool) (fuel off left : Nat)
    (done : List Byte) :
    Triple pre (readLoop k ip copyout fuel off left done) (fun _ => pre) := by
  induction fuel generalizing off left done with
  | zero => exact Triple.keep _
  | succ fuel induction =>
      apply Triple.ite
      · exact fun _ => Triple.keep _
      intro _
      refine Triple.bind (stable.bmap _) (fun addr => ?_)
      apply Triple.ite
      · exact fun _ => Triple.keep _
      intro _
      refine Triple.bind (bread _) (fun bytes => ?_)
      apply Triple.ite
      · exact fun _ => induction _ _ _
      · exact fun _ => Triple.keep _

theorem readi (copyout : Nat → Bool) (off n : BitVec 32) :
    Triple pre (readi k ip copyout off n) (fun _ => pre) := by
  refine Triple.bind (inodeAt ip) (fun inode => ?_)
  apply Triple.ite
  · exact fun _ => Triple.keep _
  · exact fun _ => stable.readLoop _ _ _ _ _

theorem writeLoop (copyin : Nat → Bool) (source : Bytes)
    (fuel off left tot : Nat) :
    Triple pre (writeLoop k ip copyin source fuel off left tot)
      (fun _ => pre) := by
  induction fuel generalizing off left tot with
  | zero => exact Triple.keep _
  | succ fuel induction =>
      apply Triple.ite
      · exact fun _ => Triple.keep _
      intro _
      refine Triple.bind (stable.bmap _) (fun addr => ?_)
      apply Triple.ite
      · exact fun _ => Triple.keep _
      intro _
      refine Triple.bind (bread _) (fun bytes => ?_)
      apply Triple.ite
      · intro _
        exact Triple.bind (stable.logWrite _ _) (fun _ => induction _ _ _)
      · exact fun _ => Triple.keep _

theorem writei (copyin : Nat → Bool) (source : Bytes) (off n : BitVec 32) :
    Triple pre (writei k ip copyin source off n) (fun _ => pre) := by
  refine Triple.bind (inodeAt ip) (fun inode => ?_)
  apply Triple.ite
  · exact fun _ => Triple.keep _
  intro _
  apply Triple.ite
  · exact fun _ => Triple.keep _
  intro _
  refine Triple.bind (stable.writeLoop _ _ _ _ _ _) (fun written => ?_)
  refine Triple.bind (stable.setCopy _) (fun _ => ?_)
  refine Triple.bind stable.iupdate (fun _ => ?_)
  exact Triple.keep _

/-! ## Directory entries -/

theorem readDirent (off : Nat) (message : String) :
    Triple pre (readDirent k ip off message) (fun _ => pre) := by
  refine Triple.bind (stable.readi _ _ _) (fun entry => ?_)
  cases entry with
  | none => exact Triple.throw
  | some entry =>
      apply Triple.ite
      · exact fun _ => Triple.keep _
      · exact fun _ => Triple.throw

theorem emptyLoop (left off : Nat) :
    Triple pre (emptyLoop k ip left off) (fun _ => pre) := by
  induction left generalizing off with
  | zero => exact Triple.keep _
  | succ left induction =>
      refine Triple.bind (stable.readDirent _ _) (fun entry => ?_)
      apply Triple.ite
      · exact fun _ => Triple.keep _
      · exact fun _ => induction _

end

end Stable

end OSCourse.FileSystem
