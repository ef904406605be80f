import OSCourse.FileSystem.Invariant
import OSCourse.Library.Hoare

/-!
# Blocks and inode content

The functions of `fs.c` that allocate, free, read and write blocks keep the
invariant.  `bmap` returns a block of the inode, so that what is written there
is neither an inode nor the free map nor another inode's block.
-/

namespace OSCourse.FileSystem

open OSCourse.Library.ByteBlock
open OSCourse.Library.Hoare

variable {k : Kernel} {frame : Frame} {own : Owners} {skip : Option Nat}
  {held : List Hold}

/-! ## State access -/

theorem bread_spec {pre : Fs → Prop} (block : Nat) :
    Triple pre (bread block)
      (fun bytes state => pre state ∧ bytes = state.disk block) := by
  rintro state holds bytes after ⟨⟩
  exact ⟨holds, rfl⟩

theorem inodeAt_spec {pre : Fs → Prop} (ip : Nat) :
    Triple pre (inodeAt ip)
      (fun inode state => pre state ∧ inode = state.inode ip) := by
  rintro state holds inode after ⟨⟩
  exact ⟨holds, rfl⟩

/-! ## The free map -/

theorem balloc_run (k : Kernel) (state : Fs) :
    balloc k state =
      match freeBlock k state.disk with
      | none => .ok (0, state)
      | some block =>
          .ok (BitVec.ofNat 32 block,
            (state.withBlock (k.sb.bblock block)
              (setBit (state.disk (k.sb.bblock block))
                (block % bpb))).withBlock block zeros) := by
  show (match freeBlock k state.disk with
    | none => _
    | some block => _ : FsM (BitVec 32)) state = _
  cases freeBlock k state.disk <;> rfl

/-- `balloc` returns a fresh block or zero, and leaves the owned blocks. -/
theorem balloc_spec {state : Fs} (good : Good k frame own skip held state) :
    Triple (fun current => current = state) (balloc k)
      (fun addr after => Good k frame own skip held after ∧
        (addr ≠ 0 → Fresh k.sb own after.disk addr.toNat) ∧
        ∀ block owner, own block = some owner →
          after.disk block = state.disk block) := by
  rintro current rfl addr after run
  rw [balloc_run] at run
  split at run
  · cases run
    exact ⟨good, fun nonzero => absurd rfl nonzero, fun _ _ _ => rfl⟩
  · next block found =>
    cases run
    have inside : block < k.sb.size :=
      List.mem_range.mp (List.mem_of_find?_eq_some found)
    have free : k.sb.marked current.disk block = false := by
      simpa using List.find?_some found
    rcases good.image.free_block inside free with ⟨inData, unowned⟩
    have number : (BitVec.ofNat 32 block).toNat = block := by
      have fits := k.sb.sizeFits
      rw [BitVec.toNat_ofNat, Nat.mod_eq_of_lt (by omega)]
    have marked := good.write_map (good.image.mark inside)
    have image : Image k.sb own skip (Function.update _ block zeros) :=
      marked.image.data_block inData (by simp [unowned]) (by simp [unowned])
    have cleared := marked.write_data inData image
    refine ⟨cleared, fun _ => ?_, ?_⟩
    · rw [number]
      refine ⟨inData, unowned, ?_, ?_⟩
      · show k.sb.marked (Function.update _ block zeros) block = true
        rw [k.sb.marked_update_data zeros inside inData.1]
        simp [Fs.withBlock, k.sb.marked_setBit]
      · simp [Fs.withBlock]
    · intro other owner owned
      have apart : other ≠ block := by
        rintro rfl
        simp [unowned] at owned
      have above := (good.image.inData other owner owned).1
      have below := k.sb.bblock_lt inside
      have unmapped : other ≠ k.sb.bblock block := by omega
      simp [Fs.withBlock, Function.update_of_ne apart,
        Function.update_of_ne unmapped]

theorem bfree_run (k : Kernel) (block : Nat) (state : Fs) :
    bfree k block state =
      if isSet (state.disk (k.sb.bblock block)) (block % bpb) then
        .ok ((), state.withBlock (k.sb.bblock block)
          (clearBit (state.disk (k.sb.bblock block)) (block % bpb)))
      else .error (.panic "freeing free block") := by
  show (if isSet (state.disk (k.sb.bblock block)) (block % bpb) then _
    else _ : FsM Unit) state = _
  split <;> rfl

/-- A block that may be freed. -/
def Freeable (k : Kernel) (own : Owners) (block : Nat) : Prop :=
  k.sb.InData block ∧ own block = none

/-- `bfree` of a block that nobody owns changes only the free map. -/
theorem bfree_spec {block : Nat} (freeable : Freeable k own block)
    {state : Fs} (good : Good k frame own skip held state) :
    Triple (fun current => current = state) (bfree k block)
      (fun _ after => Good k frame own skip held after ∧
        after.inode = state.inode ∧
        ∀ other, k.sb.dataStart ≤ other →
          after.disk other = state.disk other) := by
  rintro current rfl result after run
  rw [bfree_run] at run
  split at run
  · cases run
    refine ⟨good.write_map (good.image.unmark freeable.1 freeable.2), rfl, ?_⟩
    intro other data
    have below := k.sb.bblock_lt freeable.1.2
    exact Function.update_of_ne (by omega) _ _
  · cases run

/-! ## Writing inodes back -/

theorem iupdate_run (k : Kernel) (ip : Nat) (state : Fs) :
    iupdate k ip state =
      .ok ((), state.withBlock (k.sb.iblock (state.inode ip).inum)
        (writeDinode (state.disk (k.sb.iblock (state.inode ip).inum))
          ((state.inode ip).inum % ipb) (state.inode ip).copy)) :=
  rfl

/-- An edit of an entry and the `iupdate` after it. -/
theorem edit_iupdate_run (k : Kernel) {ip inum : Nat}
    (change : Dinode → Dinode) {state : Fs}
    (number : (state.inode ip).inum = inum) :
    iupdate k ip (state.withInode ip (Inode.edit change)) =
      .ok ((), (state.withInode ip (Inode.edit change)).withBlock
        (k.sb.iblock inum)
        (writeDinode (state.disk (k.sb.iblock inum)) (inum % ipb)
          (change (state.inode ip).copy))) := by
  subst number
  simp [iupdate_run, Fs.withInode, Inode.edit]

/-! ## Truncation -/

/-- The state in which `itrunc` frees the blocks of an inode. -/
structure Truncating (k : Kernel) (frame : Frame) (own : Owners)
    (held : List Hold) (ip inum : Nat) (state : Fs) : Prop where
  good : Good k frame own (some inum) held state
  addrs : ∀ place, (state.inode ip).copy.addrs place ≠ 0 →
    Freeable k own ((state.inode ip).copy.addrs place).toNat
  entries : (state.inode ip).copy.addrs (Fin.last ndirect) ≠ 0 →
    ∀ place < nindirect,
      indirectEntry (state.disk ((state.inode ip).copy.addrs
        (Fin.last ndirect)).toNat) place ≠ 0 →
      Freeable k own (indirectEntry (state.disk ((state.inode ip).copy.addrs
        (Fin.last ndirect)).toNat) place).toNat

namespace Truncating

variable {ip inum : Nat} {state : Fs}

/-- At the start of `itrunc` the blocks of the inode are given up. -/
theorem start {type : BitVec 16} (good : Good k frame own none held state)
    (member : ⟨ip, inum, some type⟩ ∈ held) :
    Truncating k frame (own.release inum) held ip inum state := by
  rcases good.table.loaded_of_hold member with ⟨number, _, _, loaded⟩
  have owned : ∀ place, (state.inode ip).copy.addrs place ≠ 0 →
      own ((state.inode ip).copy.addrs place).toNat =
        some (inum, .addr place) := by
    rw [← number]
    exact loaded.addrs (by simp)
  constructor
  case good => exact good.release inum
  case addrs =>
    intro place nonzero
    exact ⟨good.image.inData _ _ (owned place nonzero),
      Owners.release_of_owned (owned place nonzero)⟩
  case entries =>
    intro indirect place bound nonzero
    have entry :=
      good.image.entries _ _ (owned _ indirect) place bound nonzero
    exact ⟨good.image.inData _ _ entry, Owners.release_of_owned entry⟩

/-- Freeing a block keeps the state of the truncation. -/
theorem bfree (trunc : Truncating k frame own held ip inum state)
    {block : Nat} (freeable : Freeable k own block) :
    Triple (fun current => current = state) (bfree k block)
      (fun _ after => Truncating k frame own held ip inum after ∧
        after.inode = state.inode ∧
        ∀ other, k.sb.dataStart ≤ other →
          after.disk other = state.disk other) := by
  refine (bfree_spec freeable trunc.good).weaken ?_
  rintro _ after ⟨good, table, data⟩
  refine ⟨⟨good, ?_, ?_⟩, table, data⟩
  · rw [table]
    exact trunc.addrs
  · rw [table]
    intro indirect
    rw [data _ (trunc.addrs _ indirect).1.1]
    exact trunc.entries indirect

/-- A freed address is cleared in the entry. -/
theorem clear (trunc : Truncating k frame own held ip inum state)
    (number : (state.inode ip).inum = inum) (place : Fin (ndirect + 1)) :
    Truncating k frame own held ip inum
      (state.withInode ip (Inode.edit fun copy =>
        { copy with addrs := Function.update copy.addrs place 0 })) := by
  have kept : ∀ other,
      Function.update (state.inode ip).copy.addrs place 0 other ≠ 0 →
        Function.update (state.inode ip).copy.addrs place 0 other =
          (state.inode ip).copy.addrs other := by
    intro other nonzero
    rw [Function.update_of_ne]
    rintro rfl
    simp at nonzero
  constructor
  case good =>
    apply trunc.good.edit
    · exact ⟨rfl, rfl, rfl⟩
    · intro unskipped
      exact absurd (congrArg some number.symm) unskipped
  case addrs =>
    intro other nonzero
    simp only [Fs.withInode, Inode.edit, Function.update_self] at nonzero ⊢
    rw [kept other nonzero]
    exact trunc.addrs other (kept other nonzero ▸ nonzero)
  case entries =>
    intro indirect
    simp only [Fs.withInode, Inode.edit, Function.update_self] at indirect ⊢
    rw [kept _ indirect]
    exact trunc.entries (kept _ indirect ▸ indirect)

end Truncating

section Truncation

variable {ip inum : Nat} {type : BitVec 16}

theorem truncDirect_spec (member : ⟨ip, inum, some type⟩ ∈ held)
    (rest : List (Fin ndirect)) :
    Triple
      (fun state => Truncating k frame own held ip inum state ∧
        ∀ place, place ∈ rest ∨
          (state.inode ip).copy.addrs place.castSucc = 0)
      (truncDirect k ip rest)
      (fun _ state => Truncating k frame own held ip inum state ∧
        ∀ place : Fin ndirect,
          (state.inode ip).copy.addrs place.castSucc = 0) := by
  induction rest with
  | nil =>
      apply Triple.pure
      rintro state ⟨trunc, cleared⟩
      exact ⟨trunc, fun place => (cleared place).resolve_left (by simp)⟩
  | cons place rest induction =>
      refine Triple.bind (inodeAt_spec ip) (fun inode => ?_)
      apply Triple.ite
      · intro zero
        refine induction.strengthen ?_
        rintro state ⟨⟨trunc, cleared⟩, rfl⟩
        refine ⟨trunc, fun other => ?_⟩
        rcases cleared other with member | done
        · rcases List.mem_cons.mp member with rfl | member
          · exact .inr zero
          · exact .inl member
        · exact .inr done
      · intro nonzero
        apply Triple.at_state
        rintro state ⟨⟨trunc, cleared⟩, rfl⟩
        refine Triple.bind (trunc.bfree (trunc.addrs _ nonzero)) ?_
        intro _
        refine Triple.bind (Triple.modify (fun after freed => ?_))
          (fun _ => induction)
        rcases freed with ⟨freed, table, _⟩
        have number := (freed.good.table.loaded_of_hold member).1
        refine ⟨freed.clear number place.castSucc, fun other => ?_⟩
        simp only [Fs.withInode, Inode.edit, Function.update_self, table]
        rcases cleared other with member | done
        · rcases List.mem_cons.mp member with rfl | member
          · exact .inr (by simp)
          · exact .inl member
        · right
          rw [Function.update_apply]
          split
          · rfl
          · exact done

theorem truncEntries_spec {bytes : Bytes} (table : Nat → Inode)
    (rest : List Nat)
    (freeable : ∀ place ∈ rest, indirectEntry bytes place ≠ 0 →
      Freeable k own (indirectEntry bytes place).toNat) :
    Triple
      (fun state => Truncating k frame own held ip inum state ∧
        state.inode = table)
      (truncEntries k bytes rest)
      (fun _ state => Truncating k frame own held ip inum state ∧
        state.inode = table) := by
  induction rest with
  | nil => exact Triple.pure (fun _ holds => holds)
  | cons place rest induction =>
      have later := induction
        (fun other member => freeable other (List.mem_cons_of_mem _ member))
      apply Triple.ite
      · exact fun _ => later
      · intro nonzero
        apply Triple.at_state
        rintro state ⟨trunc, rfl⟩
        refine Triple.bind
          (trunc.bfree (freeable place List.mem_cons_self nonzero)) ?_
        intro _
        refine later.strengthen ?_
        rintro after ⟨freed, same, _⟩
        exact ⟨freed, same⟩

theorem truncIndirect_spec (member : ⟨ip, inum, some type⟩ ∈ held) :
    Triple
      (fun state => Truncating k frame own held ip inum state ∧
        ∀ place : Fin ndirect,
          (state.inode ip).copy.addrs place.castSucc = 0)
      (truncIndirect k ip)
      (fun _ state => Truncating k frame own held ip inum state ∧
        ∀ place, (state.inode ip).copy.addrs place = 0) := by
  refine Triple.bind (inodeAt_spec ip) (fun inode => ?_)
  apply Triple.ite
  · intro zero
    apply Triple.pure
    rintro state ⟨⟨trunc, cleared⟩, rfl⟩
    exact ⟨trunc, Fin.lastCases zero cleared⟩
  · intro nonzero
    apply Triple.at_state
    rintro state ⟨⟨trunc, cleared⟩, rfl⟩
    refine Triple.bind (bread_spec _) (fun bytes => ?_)
    apply Triple.at_state
    rintro current ⟨rfl, rfl⟩
    have entries :
        Triple
          (fun state => Truncating k frame own held ip inum state ∧
            state.inode = current.inode)
          (truncEntries k _ (List.range nindirect)) _ :=
      truncEntries_spec current.inode _ (fun place inside =>
        trunc.entries nonzero place (List.mem_range.mp inside))
    refine Triple.bind (entries.strengthen ?_) (fun _ => ?_)
    · rintro _ rfl
      exact ⟨trunc, rfl⟩
    apply Triple.at_state
    rintro freed ⟨trunc', same⟩
    rw [← same] at nonzero ⊢
    refine Triple.bind (trunc'.bfree (trunc'.addrs _ nonzero)) (fun _ => ?_)
    apply Triple.modify
    rintro after ⟨trunc'', table, _⟩
    have number := (trunc''.good.table.loaded_of_hold member).1
    refine ⟨trunc''.clear number (Fin.last ndirect), fun place => ?_⟩
    simp only [Fs.withInode, Inode.edit, Function.update_self, table, same]
    rw [Function.update_apply]
    split
    · rfl
    · next apart =>
      cases place using Fin.lastCases with
      | last => exact absurd rfl apart
      | cast place => exact cleared place

/-- `itrunc` leaves an empty inode that owns no block. -/
theorem itrunc_spec (member : ⟨ip, inum, some type⟩ ∈ held)
    (shape : frame.shape inum type 0) :
    Triple (Inv k frame held) (itrunc k ip)
      (fun _ state => ∃ own, Good k frame own none held state ∧
        (∀ block place, own block ≠ some (inum, place)) ∧
        (state.inode ip).copy.size = 0) := by
  apply Triple.exists_pre
  intro own
  have started :
      Triple (Good k frame own none held)
        (truncDirect k ip (List.finRange ndirect)) _ :=
    (truncDirect_spec member _).strengthen fun state good =>
      ⟨.start good member, fun place => .inl (List.mem_finRange place)⟩
  refine Triple.bind started (fun _ => ?_)
  refine Triple.bind (truncIndirect_spec member) (fun _ => ?_)
  intro state holds result after run
  rcases holds with ⟨trunc, cleared⟩
  rcases trunc.good.table.loaded_of_hold member with
    ⟨number, _, _, _⟩
  rcases bind_eq_ok.mp run with ⟨_, edited, ⟨⟩, run⟩
  rw [edit_iupdate_run k _ number] at run
  cases run
  refine ⟨own.release inum, ?_, ?_, ?_⟩
  · exact trunc.good.write_back (fun copy => { copy with size := 0 }) member
      (.inr rfl) rfl (fun place nonzero => absurd (cleared place) nonzero) rfl
      shape
  · intro block place owned
    exact (Owners.release_eq_some.mp owned).2 rfl
  · simp [Fs.withBlock, Fs.withInode, Inode.edit]

end Truncation

/-! ## Edits that are written back -/

/--
An edit of an entry that keeps its type, permissions and addresses, with the
`iupdate` after it, keeps the invariant.
-/
theorem edit_flush_spec {ip inum : Nat} {type : BitVec 16}
    {change : Dinode → Dinode}
    (member : ⟨ip, inum, some type⟩ ∈ held) (unshaped : frame.Unshaped)
    (kind : ∀ copy, (change copy).type = copy.type)
    (addrs : ∀ copy, (change copy).addrs = copy.addrs)
    (permissions : ∀ copy, (change copy).permissions = copy.permissions) :
    Triple (Inv k frame held)
      (do setInode ip (Inode.edit change); iupdate k ip)
      (fun _ state => Inv k frame held state) := by
  rintro state ⟨own, good⟩ result final run
  rcases good.table.loaded_of_hold member with ⟨number, _, _, loaded⟩
  rcases bind_eq_ok.mp run with ⟨_, edited, ⟨⟩, run⟩
  rw [edit_iupdate_run k change number] at run
  cases run
  refine ⟨own, good.write_back change member (.inl rfl) (kind _) ?_
    (permissions _) (unshaped _ _ _)⟩
  rw [addrs, ← number]
  exact loaded.addrs (by simp)

/-- Such an edit at the head of a program. -/
theorem edit_iupdate_spec {ip inum : Nat} {type : BitVec 16} {α : Type}
    {change : Dinode → Dinode} {rest : FsM α} {post : α → Fs → Prop}
    (member : ⟨ip, inum, some type⟩ ∈ held) (unshaped : frame.Unshaped)
    (kind : ∀ copy, (change copy).type = copy.type)
    (addrs : ∀ copy, (change copy).addrs = copy.addrs)
    (permissions : ∀ copy, (change copy).permissions = copy.permissions)
    (after : Triple (Inv k frame held) rest post) :
    Triple (Inv k frame held)
      (do setInode ip (Inode.edit change); iupdate k ip; rest) post := by
  rw [← bind_assoc]
  exact Triple.bind
    (edit_flush_spec member unshaped kind addrs permissions) (fun _ => after)

/-! ## Mapping file offsets to blocks -/

section Mapping

variable {ip inum : Nat} {type : BitVec 16}

/-- `bmap` at one of the addresses in the inode. -/
theorem allocAddr_spec (member : ⟨ip, inum, some type⟩ ∈ held)
    (place : Fin (ndirect + 1)) :
    Triple (Inv k frame held) (allocAddr k ip place)
      (fun addr state => ∃ own, Good k frame own none held state ∧
        (addr ≠ 0 → own addr.toNat = some (inum, .addr place))) := by
  apply Triple.exists_pre
  intro own
  refine Triple.bind (inodeAt_spec ip) (fun inode => ?_)
  apply Triple.ite
  · intro zero
    apply Triple.at_state
    rintro before ⟨good, _⟩
    refine Triple.bind (balloc_spec good) (fun addr => ?_)
    apply Triple.ite
    · rintro rfl
      apply Triple.pure
      rintro state ⟨good, _⟩
      exact ⟨own, good, fun nonzero => absurd rfl nonzero⟩
    · intro nonzero
      rintro state ⟨good, fresh, _⟩ result after ⟨⟩
      have adopted := good.adopt (.addr place) member (fresh nonzero)
      have number := (good.table.loaded_of_hold member).1
      refine ⟨_, adopted.edit ⟨rfl, rfl, rfl⟩ ?_, fun _ => by simp⟩
      intro _ other _
      simp only [Function.update_apply]
      split
      · next same =>
        subst same
        simp [number]
      · exact .inl rfl
  · intro nonzero
    apply Triple.pure
    rintro state ⟨good, rfl⟩
    rcases good.table.loaded_of_hold member with ⟨number, _, _, loaded⟩
    refine ⟨own, good, fun _ => ?_⟩
    rw [← number]
    exact loaded.addrs (by simp) place nonzero

/-- A new entry of an indirect block. -/
theorem Good.adopt_entry {state : Fs} {block fresh place : Nat}
    (good : Good k frame own none held state)
    (member : ⟨ip, inum, some type⟩ ∈ held)
    (owned : own block = some (inum, .indirect))
    (new : Fresh k.sb own state.disk fresh) (bound : place < nindirect)
    (fits : fresh < 2 ^ 32) :
    Good k frame
      (Function.update own fresh (some (inum, .entry place))) none held
      (state.withBlock block
        (store (state.disk block) (4 * place) 4 fresh)) := by
  have inData := good.image.inData block _ owned
  have adopted := good.adopt (.entry place) member new
  have apart : block ≠ fresh := by
    rintro rfl
    simp [new.unowned] at owned
  have owned' : Function.update own fresh (some (inum, .entry place)) block =
      some (inum, .indirect) := by
    rw [Function.update_of_ne apart, owned]
  apply adopted.write_data inData
  apply adopted.image.data_block inData
  · intro other owner index inside nonzero
    rw [owned'] at owner
    cases owner
    by_cases same : index = place
    · subst same
      have value : indirectEntry
          (store (state.disk block) (4 * index) 4 fresh) index =
            BitVec.ofNat 32 fresh := by
        rw [indirectEntry, load_store_same _ _ _ _ (by simpa using fits)]
      rw [value, BitVec.toNat_ofNat, Nat.mod_eq_of_lt fits]
      simp
    · have value : indirectEntry
          (store (state.disk block) (4 * place) 4 fresh) index =
            indirectEntry (state.disk block) index := by
        rw [indirectEntry, load_store_outside _ _ (by omega), indirectEntry]
      rw [value] at nonzero ⊢
      exact adopted.image.entries block inum owned' index inside nonzero
  · intro other place' owner notIndirect
    rw [owned'] at owner
    cases owner
    exact absurd rfl notIndirect

/-- `bmap` returns a block of the inode that is not its indirect block. -/
theorem bmap_spec (member : ⟨ip, inum, some type⟩ ∈ held) (bn : Nat) :
    Triple (Inv k frame held) (bmap k ip bn)
      (fun addr state => ∃ own, Good k frame own none held state ∧
        (addr ≠ 0 → ∃ place, place ≠ Place.indirect ∧
          own addr.toNat = some (inum, place))) := by
  unfold bmap
  split
  · next direct =>
    refine (allocAddr_spec member _).weaken ?_
    rintro addr state ⟨own, good, owned⟩
    refine ⟨own, good, fun nonzero => ⟨_, ?_, owned nonzero⟩⟩
    simp only [Place.indirect, ne_eq, Place.addr.injEq, Fin.ext_iff,
      Fin.val_last]
    omega
  · split
    · next bound =>
      refine Triple.bind (allocAddr_spec member _) (fun indirect => ?_)
      apply Triple.exists_pre
      intro own
      apply Triple.ite
      · intro _
        apply Triple.pure
        rintro state ⟨good, _⟩
        exact ⟨own, good, fun nonzero => absurd rfl nonzero⟩
      · intro nonzero
        refine Triple.bind (bread_spec _) (fun bytes => ?_)
        apply Triple.ite
        · intro _
          apply Triple.at_state
          rintro state ⟨⟨good, owned⟩, rfl⟩
          refine Triple.bind (balloc_spec good) (fun fresh => ?_)
          apply Triple.ite
          · intro _
            apply Triple.pure
            rintro after ⟨good, _⟩
            exact ⟨own, good, fun nonzero => absurd rfl nonzero⟩
          · rintro nonzero' after ⟨good, new, kept⟩ result final ⟨⟩
            rw [← kept _ _ (owned nonzero)]
            refine ⟨_, good.adopt_entry member (owned nonzero) (new nonzero')
              bound fresh.isLt, fun _ => ⟨.entry (bn - ndirect), ?_, ?_⟩⟩
            · simp [Place.indirect]
            · simp
        · intro nonzero'
          apply Triple.pure
          rintro state ⟨⟨good, owned⟩, rfl⟩
          exact ⟨own, good, fun _ => ⟨.entry (bn - ndirect), by
            simp [Place.indirect], good.image.entries _ _ (owned nonzero) _
              bound nonzero'⟩⟩
    · exact Triple.throw

end Mapping

/-! ## Reading -/

section Reading

variable {ip inum : Nat} {type : BitVec 16}

/-- What is read from a block keeps the invariant. -/
theorem readLoop_spec (member : ⟨ip, inum, some type⟩ ∈ held)
    (copyout : Nat → Bool) (fuel off left : Nat) (done : List Byte) :
    Triple (Inv k frame held) (readLoop k ip copyout fuel off left done)
      (fun _ state => Inv k frame held state) := by
  induction fuel generalizing off left done with
  | zero => exact Triple.pure (fun _ holds => holds)
  | succ fuel induction =>
      apply Triple.ite
      · intro _
        exact Triple.pure (fun _ holds => holds)
      · intro _
        refine Triple.bind (bmap_spec member _) (fun addr => ?_)
        apply Triple.ite
        · intro _
          exact Triple.pure (fun _ => Inv.of_owners)
        · intro _
          refine Triple.bind (bread_spec _) (fun bytes => ?_)
          apply Triple.ite
          · intro _
            exact (induction _ _ _).strengthen
              (fun _ holds => Inv.of_owners holds.1)
          · intro _
            exact Triple.pure (fun _ holds => Inv.of_owners holds.1)

/-- `readi` keeps the invariant. -/
theorem readi_spec (member : ⟨ip, inum, some type⟩ ∈ held)
    (copyout : Nat → Bool) (off n : BitVec 32) :
    Triple (Inv k frame held) (readi k ip copyout off n)
      (fun _ state => Inv k frame held state) := by
  refine Triple.bind (inodeAt_spec ip) (fun inode => ?_)
  apply Triple.ite
  · intro _
    exact Triple.pure (fun _ holds => holds.1)
  · intro _
    exact (readLoop_spec member copyout _ _ _ _).strengthen
      (fun _ holds => holds.1)

theorem readLoop_nothing (k : Kernel) (ip : Nat) (copyout : Nat → Bool)
    (fuel off : Nat) (done : List Byte) :
    readLoop k ip copyout fuel off 0 done = pure (some done) := by
  cases fuel <;> rfl

/-- The inode number in a directory entry that was read. -/
theorem direntInum_read (bytes : Bytes) (place : Nat) :
    direntInum ((List.range 16).map fun distance => bytes (place + distance)) =
      load bytes place 2 := by
  apply load_congr
  intro distance bound
  have inside : distance < 16 := by omega
  simp [inside]

/-- The directory entries in the blocks of a directory name inodes. -/
theorem readLoop_dirent (member : ⟨ip, inum, some tDir⟩ ∈ held)
    (copyout : Nat → Bool) (fuel : Nat) {off left : Nat}
    (aligned : 16 ∣ off) (short : left ≤ 16) :
    Triple (Inv k frame held) (readLoop k ip copyout fuel off left [])
      (fun result state => Inv k frame held state ∧
        ∀ entry, result = some entry → entry.length = 16 →
          direntInum entry < k.sb.ninodes) := by
  have nothing : ∀ entry : List Byte,
      some [] = some entry → entry.length = 16 →
        direntInum entry < k.sb.ninodes := by
    rintro entry ⟨⟩ long
    simp at long
  cases fuel with
  | zero => exact Triple.pure (fun _ holds => ⟨holds, nothing⟩)
  | succ fuel =>
      apply Triple.ite
      · intro _
        exact Triple.pure (fun _ holds => ⟨holds, nothing⟩)
      · intro _
        refine Triple.bind (bmap_spec member _) (fun addr => ?_)
        apply Triple.ite
        · intro _
          apply Triple.pure
          rintro state ⟨own, good, _⟩
          exact ⟨⟨own, good⟩, nothing⟩
        · intro nonzero
          refine Triple.bind (bread_spec _) (fun bytes => ?_)
          have whole : chunk off left = left := by
            simp only [chunk, bsize]
            omega
          apply Triple.ite
          · intro _
            rw [whole, Nat.sub_self, readLoop_nothing]
            apply Triple.pure
            rintro state ⟨⟨own, good, owned⟩, rfl⟩
            refine ⟨⟨own, good⟩, ?_⟩
            rintro entry ⟨⟩ long
            have full : left = 16 := by simpa using long
            rcases owned nonzero with ⟨place, notIndirect, owned⟩
            rcases good.table.loaded_of_hold member with
              ⟨number, _, kind, loaded⟩
            have directory : (k.sb.dinode state.disk inum).type = tDir := by
              rw [← number, ← loaded.agrees.type, kind]
            have entries := good.image.dirents _ _ _ owned notIndirect
              directory (off % bsize / 16) (by simp only [bsize]; omega)
            have position : 16 * (off % bsize / 16) = off % bsize := by
              simp only [bsize]
              omega
            rw [position] at entries
            rw [full, List.nil_append, direntInum_read]
            exact entries
          · intro _
            apply Triple.pure
            rintro state ⟨⟨own, good, _⟩, _⟩
            exact ⟨⟨own, good⟩, by simp⟩

/-- A directory entry that was read names an inode. -/
theorem readDirent_spec (member : ⟨ip, inum, some tDir⟩ ∈ held)
    {off : Nat} (aligned : 16 ∣ off) (message : String) :
    Triple (Inv k frame held) (readDirent k ip off message)
      (fun entry state => Inv k frame held state ∧
        direntInum entry < k.sb.ninodes) := by
  have read :
      Triple (Inv k frame held)
        (readi k ip kernelMemory (BitVec.ofNat 32 off) 16)
        (fun result state => Inv k frame held state ∧
          ∀ entry, result = some entry → entry.length = 16 →
            direntInum entry < k.sb.ninodes) := by
    refine Triple.bind (inodeAt_spec ip) (fun inode => ?_)
    apply Triple.ite
    · intro _
      apply Triple.pure
      rintro state ⟨holds, _⟩
      refine ⟨holds, ?_⟩
      rintro entry ⟨⟩ long
      simp at long
    · intro inside
      refine (readLoop_dirent member kernelMemory _ ?_ ?_).strengthen
        (fun _ holds => holds.1)
      · rw [BitVec.toNat_ofNat]
        omega
      · split
        · next beyond =>
          simp only [not_or, BitVec.not_lt] at inside
          have low : BitVec.toNat _ ≤ BitVec.toNat _ := inside.1
          have room : BitVec.toNat _ ≤ BitVec.toNat _ := inside.2
          have high : BitVec.toNat _ < BitVec.toNat _ := beyond
          rw [BitVec.toNat_sub_of_le inside.1]
          have sixteen : (16 : BitVec 32).toNat = 16 := rfl
          simp only [BitVec.toNat_add, BitVec.toNat_ofNat, sixteen] at *
          omega
        · simp
  refine Triple.bind read (fun result => ?_)
  cases result with
  | none => exact Triple.throw
  | some entry =>
      apply Triple.ite
      · intro long
        apply Triple.pure
        rintro state ⟨holds, bounded⟩
        exact ⟨holds, bounded entry rfl long⟩
      · intro _
        exact Triple.throw

end Reading

/-! ## Writing -/

section Writing

variable {ip inum : Nat} {type : BitVec 16}

/-- A directory entry written at an entry boundary keeps a directory block. -/
theorem DirBlock.write_entry {sb : Superblock} {bytes source : Bytes}
    {place : Nat} (block : DirBlock sb bytes) (aligned : 16 ∣ place)
    (names : load source 0 2 < sb.ninodes) :
    DirBlock sb (overwrite bytes place 16 source) := by
  intro index bound
  by_cases same : 16 * index = place
  · subst same
    have inside : load (overwrite bytes (16 * index) 16 source)
        (16 * index + 0) 2 = load source 0 2 :=
      load_overwrite_inside bytes source (16 * index) (by omega)
    rw [Nat.add_zero] at inside
    rw [inside]
    exact names
  · rw [load_overwrite_outside bytes source (by omega)]
    exact block index bound

/-- A request to a directory writes one whole entry or nothing. -/
def WritesEntry (sb : Superblock) (off left : Nat) (source : Bytes) : Prop :=
  left = 0 ∨ 16 ∣ off ∧ left = 16 ∧ load source 0 2 < sb.ninodes

/-- Writes to a file that is no directory, and of directory entries. -/
theorem writeLoop_spec (member : ⟨ip, inum, some type⟩ ∈ held)
    (copyin : Nat → Bool) (source : Bytes) (fuel off left tot : Nat)
    (safe : type = tDir →
      WritesEntry k.sb off left (fun place => source (tot + place))) :
    Triple (Inv k frame held)
      (writeLoop k ip copyin source fuel off left tot)
      (fun _ state => Inv k frame held state) := by
  induction fuel generalizing off left tot with
  | zero => exact Triple.pure (fun _ holds => holds)
  | succ fuel induction =>
      apply Triple.ite
      · intro _
        exact Triple.pure (fun _ holds => holds)
      · intro remaining
        refine Triple.bind (bmap_spec member _) (fun addr => ?_)
        apply Triple.ite
        · intro _
          exact Triple.pure (fun _ => Inv.of_owners)
        · intro nonzero
          refine Triple.bind (bread_spec _) (fun bytes => ?_)
          have entry : type = tDir → 16 ∣ off ∧ left = 16 ∧
              chunk off left = 16 ∧
              load (fun place => source (tot + place)) 0 2 < k.sb.ninodes := by
            intro directory
            rcases safe directory with empty | ⟨aligned, whole, names⟩
            · exact absurd empty remaining
            · refine ⟨aligned, whole, ?_, names⟩
              simp only [chunk, bsize]
              omega
          apply Triple.ite
          · intro _
            refine Triple.bind (Triple.modify ?_) (fun _ => induction _ _ _ ?_)
            · rintro state ⟨⟨own, good, owned⟩, rfl⟩
              rcases owned nonzero with ⟨place, notIndirect, owned⟩
              have inData := good.image.inData _ _ owned
              refine ⟨own, good.write_data inData ?_⟩
              apply good.image.data_block inData
              · intro other owner
                rw [owned] at owner
                cases owner
                exact absurd rfl notIndirect
              · intro other place' owner notIndirect' directory
                rw [owned] at owner
                cases owner
                rcases good.table.loaded_of_hold member with
                  ⟨number, _, kind, loaded⟩
                have isDirectory : type = tDir := by
                  rw [← kind, loaded.agrees.type, number]
                  exact directory
                rcases entry isDirectory with ⟨aligned, _, whole, names⟩
                have block := good.image.dirents _ _ _ owned notIndirect
                  directory
                rw [whole]
                refine block.write_entry ?_ names
                simp only [bsize]
                omega
            · intro directory
              rcases entry directory with ⟨_, full, whole, _⟩
              left
              omega
          · intro _
            exact Triple.pure (fun _ holds => Inv.of_owners holds.1)

/-- `writei` keeps the invariant. -/
theorem writei_spec (member : ⟨ip, inum, some type⟩ ∈ held)
    (unshaped : frame.Unshaped) (copyin : Nat → Bool) (source : Bytes)
    (off n : BitVec 32)
    (safe : type = tDir → WritesEntry k.sb off.toNat n.toNat source) :
    Triple (Inv k frame held) (writei k ip copyin source off n)
      (fun _ state => Inv k frame held state) := by
  refine Triple.bind (inodeAt_spec ip) (fun inode => ?_)
  apply Triple.ite
  · intro _
    exact Triple.pure (fun _ holds => holds.1)
  · intro _
    apply Triple.ite
    · intro _
      exact Triple.pure (fun _ holds => holds.1)
    · intro _
      have looped :
          Triple (Inv k frame held)
            (writeLoop k ip copyin source n.toNat off.toNat n.toNat 0) _ :=
        writeLoop_spec member copyin source n.toNat off.toNat n.toNat 0
          (by simpa using safe)
      refine Triple.bind (looped.strengthen fun _ holds => holds.1) ?_
      rintro ⟨last, tot⟩
      refine edit_iupdate_spec member unshaped ?_ ?_ ?_ ?_
      · intro copy
        split <;> rfl
      · intro copy
        split <;> rfl
      · intro copy
        split <;> rfl
      · exact Triple.pure (fun _ holds => holds)

end Writing

end OSCourse.FileSystem
