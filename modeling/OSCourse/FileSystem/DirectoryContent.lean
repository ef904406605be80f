import OSCourse.FileSystem.DiskInodes
import OSCourse.FileSystem.Files

/-!
# Directories as maps

The content of a directory is a list of 16-byte entries.  It stands for a map
from names to inode numbers: a name is mapped to the number in the first entry
in use that has it.  In every reachable state `dirlookup` is the lookup of this
map, and `dirlink` adds a name that the map does not have and changes no other.
-/

namespace OSCourse.FileSystem

open OSCourse.Library
open OSCourse.Library.ByteBlock
open OSCourse.Library.Hoare
open OSCourse.Library.TransitionSystem

variable {k : Kernel} {frame : Frame} {own : Owners} {held : List Hold}

/-! ## Entries -/

/-- The bytes of entry `index` of a directory. -/
def entryAt (whole : List Byte) (index : Nat) : List Byte :=
  (whole.drop (16 * index)).take 16

/-- The entry is in use and has the name. -/
def hasName (name : Name) (entry : List Byte) : Bool :=
  decide (direntInum entry ≠ 0) && namecmp name (direntName entry)

/-- The first entry in use with a name. -/
def findEntry (whole : List Byte) (name : Name) : Option Nat :=
  (List.range (whole.length / 16)).find? fun index =>
    hasName name (entryAt whole index)

/-- The map from names to inode numbers that a directory stands for. -/
def lookupName (whole : List Byte) (name : Name) : Option Nat :=
  (findEntry whole name).map fun index => direntInum (entryAt whole index)

theorem findEntry_eq_some {whole : List Byte} {name : Name} {index : Nat} :
    findEntry whole name = some index ↔
      hasName name (entryAt whole index) = true ∧
        16 * (index + 1) ≤ whole.length ∧
        ∀ earlier < index, hasName name (entryAt whole earlier) = false := by
  have inside : index < whole.length / 16 ↔
      16 * (index + 1) ≤ whole.length := by omega
  simp [findEntry, List.find?_range_eq_some, inside]

theorem findEntry_eq_none {whole : List Byte} {name : Name} :
    findEntry whole name = none ↔
      ∀ index, 16 * (index + 1) ≤ whole.length →
        hasName name (entryAt whole index) = false := by
  have inside : ∀ index, index < whole.length / 16 ↔
      16 * (index + 1) ≤ whole.length := by omega
  simp [findEntry, inside]

theorem hasName_of_empty {name : Name} {entry : List Byte}
    (empty : direntInum entry = 0) : hasName name entry = false := by
  simp [hasName, empty]

theorem getElem?_entryAt (whole : List Byte) (index place : Nat) :
    (entryAt whole index)[place]? =
      if place < 16 then whole[16 * index + place]? else none := by
  simp [entryAt, List.getElem?_take, List.getElem?_drop]

/-! ## A new entry -/

/-- The bytes that `dirlink` writes. -/
def newEntry (name : Name) (inum : Nat) : List Byte :=
  slice (direntBytes name inum) 0 16

theorem direntInum_newEntry (name : Name) {inum : Nat} (fits : inum < 65536) :
    direntInum (newEntry name inum) = inum := by
  rw [newEntry, slice, direntInum_read, load_direntBytes]
  exact Nat.mod_eq_of_lt fits

theorem length_cString_le (bytes : List Byte) :
    (cString bytes).length ≤ 14 :=
  (List.takeWhile_sublist _).length_le.trans (List.length_take_le _ _)

/-- The name in a new entry, filled up with zeros. -/
theorem direntName_newEntry (name : Name) (inum : Nat) :
    direntName (newEntry name inum) =
      cString name ++ List.replicate (14 - (cString name).length) 0 := by
  have short := length_cString_le name
  apply List.ext_getElem?
  intro place
  simp only [direntName, newEntry, slice, List.getElem?_drop,
    List.getElem?_map, direntBytes, List.getElem?_append,
    List.getElem?_replicate, Nat.zero_add]
  by_cases inside : place < 14
  · rw [List.getElem?_range (by omega)]
    simp only [Option.map_some, Nat.add_sub_cancel_left,
      show ¬ 2 + place < 2 by omega, if_false]
    by_cases named : place < (cString name).length
    · simp [named]
    · rw [if_neg named, if_pos (by omega)]
      simp [List.getElem?_eq_none (Nat.not_lt.mp named)]
  · rw [List.getElem?_eq_none (by simp; omega), if_neg (by omega),
      if_neg (by omega)]
    rfl

/-- The name in a new entry is the name it was made for. -/
theorem cString_newEntry (name : Name) (inum : Nat) :
    cString (direntName (newEntry name inum)) = cString name := by
  have short := length_cString_le name
  have nonzero : ∀ byte ∈ cString name, decide (byte ≠ 0) = true :=
    fun byte member => List.all_eq_true.mp List.all_takeWhile byte member
  have full : (cString name ++ List.replicate (14 - (cString name).length)
      (0 : Byte)).take dirsiz = cString name ++
        List.replicate (14 - (cString name).length) 0 := by
    apply List.take_of_length_le
    simp only [dirsiz, List.length_append, List.length_replicate]
    omega
  rw [direntName_newEntry, cString, full,
    List.takeWhile_append_of_pos nonzero, List.takeWhile_replicate]
  simp

/-- A new entry has its own name and no other. -/
theorem hasName_newEntry {name : Name} {inum : Nat} (used : inum ≠ 0)
    (fits : inum < 65536) (other : Name) :
    hasName other (newEntry name inum) =
      decide (cString other = cString name) := by
  have number : direntInum (newEntry name inum) ≠ 0 := by
    rwa [direntInum_newEntry name fits]
  simp only [hasName, number, ne_eq, not_false_eq_true, decide_true,
    Bool.true_and, namecmp, cString_newEntry]
  exact beq_eq_decide _ _

/-- The entries after one of them is written. -/
theorem entryAt_overwrite {whole entry : List Byte} {index : Nat}
    (inside : 16 * index ≤ whole.length) (size : entry.length = 16)
    (other : Nat) :
    entryAt (PosixFile.overwrite whole (16 * index) entry) other =
      if other = index then entry else entryAt whole other := by
  apply List.ext_getElem?
  intro place
  rw [getElem?_entryAt, PosixFile.getElem?_overwrite inside]
  by_cases same : other = index
  · subst same
    rw [if_pos rfl]
    by_cases small : place < 16
    · rw [if_pos small, if_pos (by omega), Nat.add_sub_cancel_left]
    · rw [if_neg small, List.getElem?_eq_none (by omega)]
  · rw [if_neg same, getElem?_entryAt]
    by_cases small : place < 16
    · rw [if_pos small, if_pos small, if_neg (by omega)]
    · rw [if_neg small, if_neg small]

theorem length_newEntry (name : Name) (inum : Nat) :
    (newEntry name inum).length = 16 :=
  length_slice _ _ _

/-- Names are told apart by their first `DIRSIZ` characters. -/
theorem hasName_congr {name other : Name} (same : cString other = cString name)
    (entry : List Byte) : hasName other entry = hasName name entry := by
  simp only [hasName, namecmp, same]

/-- A directory in which an empty entry, or one more, is filled. -/
theorem lookupName_overwrite {whole : List Byte} {name : Name}
    {index inum : Nat} (inside : 16 * index ≤ whole.length)
    (empty : 16 * (index + 1) ≤ whole.length →
      direntInum (entryAt whole index) = 0)
    (last : whole.length < 16 * (index + 1) → whole.length = 16 * index)
    (absent : findEntry whole name = none) (used : inum ≠ 0)
    (fits : inum < 65536) (other : Name) :
    lookupName
        (PosixFile.overwrite whole (16 * index) (newEntry name inum)) other =
      if cString other = cString name then some inum
      else lookupName whole other := by
  have size := length_newEntry name inum
  have length : (PosixFile.overwrite whole (16 * index)
      (newEntry name inum)).length = max whole.length (16 * (index + 1)) := by
    rw [PosixFile.length_overwrite inside, size, Nat.mul_add]
  have entry := entryAt_overwrite inside size
  have fresh : hasName other (newEntry name inum) =
      decide (cString other = cString name) :=
    hasName_newEntry used fits other
  by_cases same : cString other = cString name
  · have found : findEntry (PosixFile.overwrite whole (16 * index)
        (newEntry name inum)) other = some index := by
      rw [findEntry_eq_some, entry, if_pos rfl, fresh, length]
      refine ⟨by simpa using same, Nat.le_max_right _ _, ?_⟩
      intro earlier before
      rw [entry, if_neg (by omega), hasName_congr same]
      exact findEntry_eq_none.mp absent earlier (by omega)
    rw [if_pos same, lookupName, found, Option.map_some, entry, if_pos rfl,
      direntInum_newEntry name fits]
  · have unnamed : hasName other (newEntry name inum) = false := by
      simpa [fresh] using same
    rw [if_neg same]
    cases found : findEntry whole other with
    | none =>
        have missing : findEntry (PosixFile.overwrite whole (16 * index)
            (newEntry name inum)) other = none := by
          rw [findEntry_eq_none, length]
          intro place bound
          rw [entry]
          split
          · exact unnamed
          · exact findEntry_eq_none.mp found place (by omega)
        rw [lookupName, lookupName, missing, found]
        rfl
    | some place =>
        rcases findEntry_eq_some.mp found with ⟨named, bound, first⟩
        have apart : place ≠ index := by
          rintro rfl
          rw [hasName_of_empty (empty bound)] at named
          cases named
        have kept : findEntry (PosixFile.overwrite whole (16 * index)
            (newEntry name inum)) other = some place := by
          rw [findEntry_eq_some, entry, if_neg apart, length]
          refine ⟨named, by omega, ?_⟩
          intro earlier before
          rw [entry]
          split
          · exact unnamed
          · exact first earlier before
        rw [lookupName, lookupName, kept, found, Option.map_some,
          Option.map_some, entry, if_neg apart]

/-! ## Looking up a name -/

section Lookup

variable {dp inum : Nat} {type : BitVec 16} {base : Contents}
  {whole : List Byte}

/-- `readDirent` returns an entry of the content. -/
theorem readDirent_content (member : ⟨dp, inum, some type⟩ ∈ held)
    (known : base inum = some whole) {index : Nat}
    (small : 16 * index < 2 ^ 32) (message : String) :
    Triple
      (fun state => Inv k frame held state ∧ Agree k base (content k state))
      (readDirent k dp (16 * index) message)
      (fun entry state =>
        (Inv k frame held state ∧ Agree k base (content k state)) ∧
          entry = entryAt whole index ∧ 16 * (index + 1) ≤ whole.length) := by
  rintro state ⟨⟨own, good⟩, agree⟩ entry after run
  rcases bind_eq_ok.mp run with ⟨answer, between, read, run⟩
  rcases readi_content good member _ _ _ _ rfl _ _ read with
    ⟨inv, same, content, found, result⟩
  rw [agree inum (good.table.inum_lt member), known] at found
  cases found
  cases result with
  | failed place fails => cases fails
  | @read bytes start complete =>
      dsimp only at run
      split at run
      · next long =>
        cases run
        have number : (BitVec.ofNat 32 (16 * index)).toNat = 16 * index := by
          rw [BitVec.toNat_ofNat, Nat.mod_eq_of_lt small]
        have sixteen : (16 : BitVec 32).toNat = 16 := rfl
        rw [number, sixteen] at start
        have bound := start.length_le
        have room : 16 ≤ whole.length - 16 * index := by
          simp only [List.length_take, List.length_drop] at bound
          omega
        refine ⟨⟨inv, fun other exists_ =>
          (same other exists_).trans (agree other exists_)⟩, ?_, by omega⟩
        refine start.eq_of_length ?_
        simp only [List.length_take, List.length_drop]
        omega
      · cases run

/-- An entry changes, but shows the same copy of the same inode, or none. -/
theorem content_withInode {ip : Nat} {state : Fs} {change : Inode → Inode}
    (seen : ∀ inum, cached (state.withInode ip change) inum ip =
      cached state inum ip)
    (copy : ∀ inum, cached state inum ip = true →
      (change (state.inode ip)).copy = (state.inode ip).copy) :
    content k (state.withInode ip change) = content k state := by
  refine content_of_cached rfl ?_ ?_
  · intro inum jp
    by_cases same : jp = ip
    · subst same
      exact seen inum
    · simp [cached, Fs.withInode, same]
  · intro inum jp known
    by_cases same : jp = ip
    · subst same
      simpa [Fs.withInode] using copy inum known
    · simp [Fs.withInode, same]

/-- `iget` changes no content, and its entry is read only if it was in use. -/
theorem iget_content {number ip : Nat} {state after : Fs}
    (run : iget k number state = .ok (ip, after)) :
    content k after = content k state ∧ (after.inode ip).inum = number ∧
      ((after.inode ip).ref = 1 → (after.inode ip).valid = false) := by
  have number_eq := iget_inum run
  rw [iget_run] at run
  split at run
  · next ip found =>
    cases run
    have test := List.find?_some found
    simp only [Bool.and_eq_true, decide_eq_true_eq] at test
    refine ⟨content_withInode ?_ fun _ _ => rfl, number_eq, ?_⟩
    · intro inum
      simp [cached, Fs.withInode, test.1]
    · intro one
      simp only [Fs.withInode, Function.update_self] at one
      omega
  · split at run
    · cases run
    · next ip found =>
      cases run
      have free := List.find?_some found
      simp only [decide_eq_true_eq] at free
      refine ⟨content_withInode ?_ fun _ _ => rfl, number_eq, ?_⟩
      · intro inum
        simp [cached, Fs.withInode, free]
      · intro _
        simp [Fs.withInode]

/-- Dropping a reference to an entry that is still used, or was not read,
changes no content. -/
theorem content_unref {ip : Nat} {state : Fs}
    (unread : (state.inode ip).ref = 1 → (state.inode ip).valid = false) :
    content k (state.withInode ip fun inode =>
      { inode with ref := inode.ref - 1 }) = content k state := by
  refine content_withInode ?_ fun _ _ => rfl
  intro inum
  simp only [cached, Fs.withInode, Function.update_self]
  by_cases one : (state.inode ip).ref = 1
  · simp [unread one]
  · have positive : 0 < (state.inode ip).ref - 1 ↔
        0 < (state.inode ip).ref := by omega
    simp only [positive]

/-- Giving back such a reference at once changes no content. -/
theorem iput_content {ip : Nat} {state after : Fs}
    (unread : (state.inode ip).ref = 1 → (state.inode ip).valid = false)
    (run : iput k ip state = .ok ((), after)) :
    content k after = content k state := by
  rcases bind_eq_ok.mp run with ⟨_, _, ⟨⟩, run⟩
  split at run
  · next last =>
    rw [unread last.1] at last
    cases last.2.1
  · cases run
    exact content_unref unread

/-- What the loop of `dirlookup` has found among the entries from `index` on. -/
def FoundFrom (whole : List Byte) (name : Name) (index left : Nat)
    (result : Option (Nat × Nat)) (state : Fs) : Prop :=
  match result with
  | none =>
      (∀ place, index ≤ place → place < index + left →
        hasName name (entryAt whole place) = false ∧
          16 * (place + 1) ≤ whole.length)
  | some (ip, off) => ∃ place, off = 16 * place ∧ index ≤ place ∧
      16 * (place + 1) ≤ whole.length ∧
      hasName name (entryAt whole place) = true ∧
      (∀ earlier, index ≤ earlier → earlier < place →
        hasName name (entryAt whole earlier) = false) ∧
      (state.inode ip).inum = direntInum (entryAt whole place) ∧
      ((state.inode ip).ref = 1 → (state.inode ip).valid = false)

theorem FoundFrom.step {name : Name} {index left : Nat}
    {result : Option (Nat × Nat)} {state : Fs}
    (found : FoundFrom whole name (index + 1) left result state)
    (other : hasName name (entryAt whole index) = false)
    (inside : 16 * (index + 1) ≤ whole.length) :
    FoundFrom whole name index (left + 1) result state := by
  have first : ∀ place, index ≤ place → place = index ∨ index + 1 ≤ place :=
    fun place low => by omega
  cases result with
  | none =>
      intro place low high
      rcases first place low with rfl | later
      · exact ⟨other, inside⟩
      · exact found place later (by omega)
  | some pair =>
      rcases pair with ⟨ip, off⟩
      rcases found with ⟨place, rfl, low, room, named, earlier, rest⟩
      refine ⟨place, rfl, by omega, room, named, ?_, rest⟩
      intro before low before_place
      rcases first before low with rfl | later
      · exact other
      · exact earlier before later before_place

theorem lookupLoop_content (member : ⟨dp, inum, some type⟩ ∈ held)
    (known : base inum = some whole) (name : Name) (left index : Nat)
    (small : 16 * (index + left) < 2 ^ 32 + 16) :
    Triple
      (fun state => Inv k frame held state ∧ Agree k base (content k state))
      (lookupLoop k dp name left (16 * index))
      (fun result state => Agree k base (content k state) ∧
        FoundFrom whole name index left result state) := by
  induction left generalizing index with
  | zero =>
      apply Triple.pure
      rintro state ⟨_, agree⟩
      exact ⟨agree, fun place low high => by omega⟩
  | succ left induction =>
      have later := induction (index + 1) (by omega)
      rw [Nat.mul_add] at later
      refine Triple.bind
        (readDirent_content member known (by omega) _) (fun entry => ?_)
      apply Triple.and_pre
      rintro ⟨rfl, inside⟩
      have skip (other : hasName name (entryAt whole index) = false) :
          Triple
            (fun state => Inv k frame held state ∧
              Agree k base (content k state))
            (lookupLoop k dp name left (16 * index + 16))
            (fun result state => Agree k base (content k state) ∧
              FoundFrom whole name index (left + 1) result state) :=
        later.weaken fun _ _ holds =>
          ⟨holds.1, holds.2.step other inside⟩
      apply Triple.ite
      · exact fun empty => skip (hasName_of_empty empty)
      · intro used
        apply Triple.ite
        · rintro same state ⟨inv, agree⟩ result after run
          rcases bind_eq_ok.mp run with ⟨ip, between, got, ⟨⟩⟩
          rcases iget_content got with ⟨content, number, unread⟩
          rw [content]
          refine ⟨agree, index, rfl, le_rfl, inside, ?_, ?_, number, unread⟩
          · simp [hasName, used, same]
          · exact fun earlier low high => by omega
        · intro different
          refine skip ?_
          rw [hasName, Bool.eq_false_iff.mpr different, Bool.and_false]

/-- What `dirlookup` returns: nothing if the directory does not have the name,
else a reference to the inode and the offset of the entry. -/
def Found (whole : List Byte) (name : Name) (result : Option (Nat × Nat))
    (state : Fs) : Prop :=
  match result with
  | none => findEntry whole name = none ∧ 16 ∣ whole.length
  | some (ip, off) => ∃ place, off = 16 * place ∧
      findEntry whole name = some place ∧
      (state.inode ip).inum = direntInum (entryAt whole place) ∧
      ((state.inode ip).ref = 1 → (state.inode ip).valid = false)

/-- The loop over all entries finds the first one. -/
theorem FoundFrom.found {name : Name} {size : BitVec 32}
    {result : Option (Nat × Nat)} {state : Fs}
    (length : whole.length = reachedSize size)
    (found : FoundFrom whole name 0 (direntCount size) result state) :
    Found whole name result state := by
  have reached : whole.length ≤ size.toNat := by
    rw [length]
    exact Nat.min_le_left _ _
  cases result with
  | none =>
      constructor
      · rw [findEntry_eq_none]
        intro index bound
        refine (found index (Nat.zero_le _) ?_).1
        simp only [direntCount]
        omega
      · cases count : direntCount size with
        | zero =>
            simp only [direntCount] at count
            have empty : whole.length = 0 := by omega
            rw [empty]
            exact Nat.dvd_zero 16
        | succ last =>
            have room := (found last (Nat.zero_le _) (by omega)).2
            simp only [direntCount] at count
            exact ⟨last + 1, by omega⟩
  | some pair =>
      rcases pair with ⟨ip, off⟩
      rcases found with ⟨place, rfl, _, room, named, earlier, rest⟩
      exact ⟨place, rfl, findEntry_eq_some.mpr ⟨named, room,
        fun before small => earlier before (Nat.zero_le _) small⟩, rest⟩

/-- The length of a directory's content. -/
theorem Good.length_content {state : Fs}
    (good : Good k frame own none held state)
    (member : ⟨dp, inum, some type⟩ ∈ held)
    (agree : Agree k base (content k state)) (known : base inum = some whole) :
    whole.length = reachedSize (state.inode dp).copy.size := by
  have same := agree inum (good.table.inum_lt member)
  rw [(good.content_entry member).2, known] at same
  rw [← Option.some.inj same, length_slice]

/-- `dirlookup` looks a name up in the content of a directory. -/
theorem dirlookup_content (member : ⟨dp, inum, some type⟩ ∈ held)
    (known : base inum = some whole) (name : Name) :
    Triple
      (fun state => Inv k frame held state ∧ Agree k base (content k state))
      (dirlookup k dp name)
      (fun result state => Agree k base (content k state) ∧
        Found whole name result state) := by
  refine Triple.bind (inodeAt_spec dp) (fun inode => ?_)
  apply Triple.ite
  · exact fun _ => Triple.throw
  · intro _
    apply Triple.at_state
    rintro state ⟨⟨⟨own, good⟩, agree⟩, rfl⟩
    have length := good.length_content member agree known
    have small : 16 * (0 + direntCount (state.inode dp).copy.size) <
        2 ^ 32 + 16 := by
      have bound := (state.inode dp).copy.size.isLt
      simp only [direntCount]
      omega
    have looped : Triple
        (fun current => Inv k frame held current ∧
          Agree k base (content k current))
        (lookupLoop k dp name (direntCount (state.inode dp).copy.size)
          (16 * 0)) _ :=
      lookupLoop_content member known name _ 0 small
    refine (looped.strengthen ?_).weaken ?_
    · rintro _ rfl
      exact ⟨⟨own, good⟩, agree⟩
    · rintro result after ⟨agree, found⟩
      exact ⟨agree, found.found length⟩

end Lookup

/-! ## Entering a name -/

section Insertion

variable {dp inum : Nat} {type : BitVec 16} {base : Contents}
  {whole : List Byte}

/-- Where the search for an empty entry ends that begins at entry `index`: at
an empty entry, or behind all `left` entries. -/
def FreeFrom (whole : List Byte) (index left off : Nat) : Prop :=
  ∃ place, off = 16 * place ∧ index ≤ place ∧ place ≤ index + left ∧
    (∀ earlier, index ≤ earlier → earlier < place →
      16 * (earlier + 1) ≤ whole.length) ∧
    (place < index + left →
      direntInum (entryAt whole place) = 0 ∧
        16 * (place + 1) ≤ whole.length)

theorem emptyLoop_content (member : ⟨dp, inum, some type⟩ ∈ held)
    (known : base inum = some whole) (left index : Nat)
    (small : 16 * (index + left) < 2 ^ 32 + 16) :
    Triple
      (fun state => Inv k frame held state ∧ Agree k base (content k state))
      (emptyLoop k dp left (16 * index))
      (fun off state =>
        (Inv k frame held state ∧ Agree k base (content k state)) ∧
          FreeFrom whole index left off) := by
  induction left generalizing index with
  | zero =>
      exact Triple.pure fun _ holds =>
        ⟨holds, index, rfl, le_rfl, le_rfl, by omega, by omega⟩
  | succ left induction =>
      have later := induction (index + 1) (by omega)
      rw [Nat.mul_add] at later
      refine Triple.bind
        (readDirent_content member known (by omega) _) (fun entry => ?_)
      apply Triple.and_pre
      rintro ⟨rfl, inside⟩
      apply Triple.ite
      · intro empty
        exact Triple.pure fun _ holds =>
          ⟨holds, index, rfl, le_rfl, by omega, by omega,
            fun _ => ⟨empty, inside⟩⟩
      · intro _
        refine later.weaken ?_
        rintro off state ⟨holds, place, rfl, low, high, passed, free⟩
        refine ⟨holds, place, rfl, by omega, by omega, ?_,
          fun before => free (by omega)⟩
        intro earlier first before
        rcases Nat.eq_or_lt_of_le first with rfl | later
        · exact inside
        · exact passed earlier later before

/-- What the whole search finds in a directory of whole entries. -/
theorem FreeFrom.entry {size : BitVec 32} {off : Nat}
    (free : FreeFrom whole 0 (direntCount size) off)
    (length : whole.length = reachedSize size) :
    ∃ place, off = 16 * place ∧ 16 * place ≤ whole.length ∧
      (16 * (place + 1) ≤ whole.length →
        direntInum (entryAt whole place) = 0) ∧
      (whole.length < 16 * (place + 1) → whole.length = 16 * place) := by
  rcases free with ⟨place, rfl, _, high, passed, free⟩
  have reached : whole.length ≤ size.toNat := by
    rw [length]
    exact Nat.min_le_left _ _
  have room : 16 * place ≤ whole.length := by
    cases place with
    | zero => omega
    | succ last => exact passed last (Nat.zero_le _) (Nat.lt_succ_self _)
  simp only [direntCount] at high free
  refine ⟨place, rfl, room, fun inside => (free (by omega)).1, ?_⟩
  intro beyond
  by_cases found : place < 0 + (size.toNat + 15) / 16
  · have inside := (free found).2
    omega
  · omega

/-- The directory `inum` maps `name` to `number` in addition, and no other file
changed. -/
structure Inserted (k : Kernel) (inum : Nat) (name : Name) (number : Nat)
    (before after : Contents) : Prop where
  directory : ∃ first last, before inum = some first ∧
    after inum = some last ∧ lookupName first name = none ∧
    ∀ other, lookupName last other =
      if cString other = cString name then some number
      else lookupName first other
  others : ∀ other < k.sb.ninodes, other ≠ inum → after other = before other

/-- What `dirlink` does and returns: it enters a new name, or refuses one that
is there or has no room. -/
inductive LinkResult (k : Kernel) (inum : Nat) (name : Name) (number : Nat)
    (before : Contents) : Int → Fs → Prop where
  | inserted {after : Fs}
      (inserted : Inserted k inum name number before (content k after)) :
      LinkResult k inum name number before 0 after
  | exists_ {after : Fs} {whole : List Byte} {found : Nat}
      (known : before inum = some whole)
      (mapped : lookupName whole name = some found)
      (same : Agree k before (content k after)) :
      LinkResult k inum name number before (-1) after
  | full {after : Fs} {whole : List Byte}
      (known : before inum = some whole)
      (absent : lookupName whole name = none)
      (cause : freeBlock k after.disk = none ∨
        maxfile * bsize < whole.length + 16)
      (same : Agree k before (content k after)) :
      LinkResult k inum name number before (-1) after

/-- A write of no bytes inside a file. -/
theorem Overwrote.nothing {off : Nat} {before after : Fs}
    (overwrote : Overwrote k inum off [] before after)
    (known : content k before inum = some whole)
    (inside : off ≤ whole.length) :
    Agree k (content k before) (content k after) := by
  intro other exists_
  by_cases same : other = inum
  · subst same
    rw [overwrote.file, known, Option.map_some,
      PosixFile.overwrite_of_le inside]
    simp
  · exact overwrote.others other exists_ same

/-- A write of one entry that stops early has stored nothing. -/
theorem EndsBlock.entry {place count : Nat}
    (ends : EndsBlock (16 * place) count) (short : count < 16) :
    count = 0 := by
  rcases ends with none | ⟨blocks, whole⟩
  · exact none
  · simp only [bsize] at whole
    omega

/-- A file whose inode was read has a content. -/
theorem content_some {before : Fs}
    (good : Good k frame own none held before)
    (member : ⟨dp, inum, some type⟩ ∈ held) :
    ∃ whole, content k before inum = some whole :=
  ⟨_, (good.content_entry member).2⟩

/-- A write of one entry stores all of it or nothing. -/
theorem WriteResult.entry {before after : Fs} {entry : Bytes} {place : Nat}
    {written : Int}
    (outcome : WriteResult k inum kernelMemory entry
      (BitVec.ofNat 32 (16 * place)) 16 before written after)
    (good : Good k frame own none held before)
    (member : ⟨dp, inum, some type⟩ ∈ held)
    (known : content k before inum = some whole)
    (inside : 16 * place ≤ whole.length) :
    (written = 16 ∧
      Overwrote k inum (16 * place) (slice entry 0 16) before after) ∨
    (written ≠ 16 ∧ Agree k (content k before) (content k after) ∧
      (freeBlock k after.disk = none ∨
        maxfile * bsize < whole.length + 16)) := by
  have length := good.length_content member (fun _ _ => rfl) known
  rw [← (good.content_entry member).1] at length
  have bound : whole.length ≤ maxfile * bsize := by
    rw [length]
    exact Nat.min_le_right _ _
  have reached : whole.length ≤ (copyOf k before inum).size.toNat := by
    rw [length]
    exact Nat.min_le_left _ _
  have large : maxfile * bsize + 16 < 2 ^ 32 := by decide
  have offset : (BitVec.ofNat 32 (16 * place)).toNat = 16 * place := by
    rw [BitVec.toNat_ofNat, Nat.mod_eq_of_lt (by omega)]
  have sixteen : (16 : BitVec 32).toNat = 16 := rfl
  have sum : (BitVec.ofNat 32 (16 * place) + 16).toNat = 16 * place + 16 := by
    rw [BitVec.toNat_add, offset, sixteen, Nat.mod_eq_of_lt (by omega)]
  cases outcome with
  | refused refused same =>
      refine .inr ⟨by decide, fun _ _ => by rw [same], .inr ?_⟩
      rcases refused with beyond | wraps | beyond
      · rw [BitVec.lt_def, offset] at beyond
        omega
      · rw [BitVec.lt_def, sum, offset] at wraps
        omega
      · rw [sum] at beyond
        omega
  | @wrote _ count _ few overwrote stopped =>
      rw [offset] at overwrote stopped
      rw [sixteen] at few stopped
      by_cases complete : count = 16
      · subst complete
        exact .inl ⟨rfl, overwrote⟩
      · rcases stopped (by omega) with ⟨ends, cause⟩
        obtain rfl := ends.entry (by omega)
        refine .inr ⟨by decide, overwrote.nothing known inside, .inl ?_⟩
        rcases cause with full | ⟨_, fails⟩
        · exact full
        · cases fails

/-- `dirlink` enters a name that the directory does not have. -/
theorem dirlink_content {before : Fs}
    (good : Good k frame own none held before)
    (member : ⟨dp, inum, some type⟩ ∈ held) (unshaped : frame.Unshaped)
    (name : Name) {number : Nat} (exists_ : number < k.sb.ninodes)
    (used : number ≠ 0) (fits : number < 65536) :
    Triple (fun current => current = before) (dirlink k dp name number)
      (fun result after =>
        LinkResult k inum name number (content k before) result
          after) := by
  rintro current rfl result after run
  rcases content_some good member with ⟨whole, known⟩
  have start : Inv k frame held current ∧
      Agree k (content k current) (content k current) :=
    ⟨⟨own, good⟩, fun _ _ => rfl⟩
  rcases bind_eq_ok.mp run with ⟨result, looked, lookup, run⟩
  have spec := dirlookup_spec member name _ start.1 _ _ lookup
  rcases dirlookup_content member known name _ start _ _ lookup with
    ⟨same, found⟩
  rcases result with _ | ⟨ip, off⟩
  · rcases found with ⟨absent, _⟩
    rcases spec with ⟨⟨owners, lookedGood⟩, _⟩
    rcases bind_eq_ok.mp run with ⟨_, _, ⟨⟩, run⟩
    rcases bind_eq_ok.mp run with ⟨off, searched, search, run⟩
    rcases bind_eq_ok.mp run with ⟨written, stored, store, finish⟩
    have small : 16 * (0 + direntCount (looked.inode dp).copy.size) <
        2 ^ 32 + 16 := by
      have bound := (looked.inode dp).copy.size.isLt
      simp only [direntCount]
      omega
    rcases emptyLoop_content member known _ 0 small _
      ⟨⟨owners, lookedGood⟩, same⟩ _ _ search with
      ⟨⟨⟨owners, searchedGood⟩, agree⟩, free⟩
    rcases free.entry (lookedGood.length_content member same known) with
      ⟨place, rfl, inside, empty, last⟩
    have knownNow :=
      (agree inum (searchedGood.table.inum_lt member)).trans known
    rcases writei_content searchedGood member unshaped _ _ _ _
      (fun _ => writesEntry_direntBytes name (Nat.dvd_mul_right 16 place)
        exists_) _ rfl _ _ store with ⟨_, outcome⟩
    rcases outcome.entry searchedGood member knownNow inside with
      ⟨rfl, overwrote⟩ | ⟨few, nothing, cause⟩
    · rw [if_pos rfl] at finish
      cases finish
      refine .inserted ⟨⟨whole, _, known, ?_, ?_, fun other =>
        lookupName_overwrite inside empty last absent used fits other⟩,
        fun other exists_ apart => (overwrote.others other exists_
          apart).trans (agree other exists_)⟩
      · rw [overwrote.file, knownNow]
        rfl
      · rw [lookupName, absent, Option.map_none]
    · rw [if_neg few] at finish
      cases finish
      refine .full known ?_ cause fun other exists_ =>
        (nothing other exists_).trans (agree other exists_)
      rw [lookupName, absent, Option.map_none]
  · rcases found with ⟨place, rfl, found, _, unread⟩
    rcases bind_eq_ok.mp run with ⟨_, _, release, ⟨⟩⟩
    have mapped : lookupName whole name =
        some (direntInum (entryAt whole place)) := by
      rw [lookupName, found, Option.map_some]
    refine .exists_ known mapped ?_
    rw [iput_content unread release]
    exact same

end Insertion

/-! ## The directory and its map -/

section Refinement

variable {dp inum : Nat} {type : BitVec 16} {base : Contents}
  {whole : List Byte}

/-- A call on a directory. -/
inductive EntryCall where
  | lookup (name : Name)
  | link (name : Name) (number : Nat)

/-- What a call on a directory returns. -/
inductive EntryAnswer where
  | found (number : Option Nat)
  | linked (result : Int)

/-- A call on the directory in entry `dp`; of the inode that is found only the
number is returned. -/
def entryCall (k : Kernel) (dp : Nat) : EntryCall → FsM EntryAnswer
  | .lookup name => do
      match ← dirlookup k dp name with
      | none => return .found none
      | some (ip, _) => return .found (some (← inodeAt ip).inum)
  | .link name number => return .linked (← dirlink k dp name number)

/-- The calls are made one after another. -/
def entryCalls (k : Kernel) (dp : Nat) : List EntryCall → FsM (List EntryAnswer)
  | [] => return []
  | call :: rest => do
      let answer ← entryCall k dp call
      return answer :: (← entryCalls k dp rest)

/-- A step of the map: a name is looked up, or entered if it is new; a name
that is there, or for which there is no room, is refused. -/
inductive MapStep (map : Name → Option Nat) :
    EntryCall → EntryAnswer → (Name → Option Nat) → Prop where
  | lookup (name : Name) :
      MapStep map (.lookup name) (.found (map name)) map
  | inserted {name : Name} {number : Nat} (absent : map name = none) :
      MapStep map (.link name number) (.linked 0) fun other =>
        if cString other = cString name then some number else map other
  | refused (name : Name) (number : Nat) :
      MapStep map (.link name number) (.linked (-1)) map

/-- A run of the map. -/
inductive MapRun : (Name → Option Nat) → List EntryCall → List EntryAnswer →
    (Name → Option Nat) → Prop where
  | done (map : Name → Option Nat) : MapRun map [] [] map
  | step {first next last : Name → Option Nat} {call : EntryCall}
      {answer : EntryAnswer} {rest : List EntryCall}
      {answers : List EntryAnswer} (head : MapStep first call answer next)
      (tail : MapRun next rest answers last) :
      MapRun first (call :: rest) (answer :: answers) last

/-- The inode that a call links exists. -/
def EntryCall.Valid (k : Kernel) : EntryCall → Prop
  | .lookup _ => True
  | .link _ number => number ≠ 0 ∧ number < 65536 ∧ number < k.sb.ninodes

/-- The directory in entry `dp` is held and has the content `whole`; the other
files have the content that `base` gives. -/
def DirectoryHeld (k : Kernel) (frame : Frame) (dp inum : Nat)
    (type : BitVec 16) (base : Contents) (whole : List Byte) (state : Fs) :
    Prop :=
  ∃ held, ⟨dp, inum, some type⟩ ∈ held ∧ Inv k frame held state ∧
    Stands k base inum whole (content k state)

theorem LookedUp.hold {result : Option (Nat × Nat)} {state : Fs}
    (member : ⟨dp, inum, some type⟩ ∈ held)
    (looked : LookedUp k frame held result state) :
    ∃ held, ⟨dp, inum, some type⟩ ∈ held ∧ Inv k frame held state := by
  rcases result with _ | ⟨ip, off⟩
  · exact ⟨held, member, looked⟩
  · rcases looked with ⟨⟨number, inv⟩, _⟩
    exact ⟨_, List.mem_cons_of_mem _ member, inv⟩

theorem Stands.of_agree {contents after : Contents}
    (stands : Stands k base inum whole contents)
    (exists_ : inum < k.sb.ninodes) (agree : Agree k contents after) :
    Stands k base inum whole after :=
  ⟨(agree inum exists_).trans stands.1, fun other bound apart =>
    (agree other bound).trans (stands.2 other bound apart)⟩

/-- The entry that a lookup returns is referenced. -/
theorem LookedUp.referenced {result : Option (Nat × Nat)} {state : Fs}
    (looked : LookedUp k frame held result state) :
    ∀ pair ∈ result, 0 < (state.inode pair.1).ref := by
  rintro ⟨ip, off⟩ ⟨⟩
  rcases looked with ⟨⟨number, own, good⟩, _⟩
  exact good.table.ref_pos List.mem_cons_self

/-- The offset and the number that a lookup finds. -/
theorem Found.lookup {name : Name} {result : Option (Nat × Nat)} {state : Fs}
    (found : Found whole name result state) :
    result.map Prod.snd = (findEntry whole name).map (16 * ·) ∧
      result.map (fun pair => (state.inode pair.1).inum) =
        lookupName whole name := by
  rcases result with _ | ⟨ip, off⟩
  · rw [lookupName, found.1]
    exact ⟨rfl, rfl⟩
  · rcases found with ⟨place, rfl, found, number, _⟩
    rw [lookupName, found]
    simp [number]

/-- `dirlookup` in a directory that is held. -/
theorem dirlookup_held (name : Name) :
    Triple (DirectoryHeld k frame dp inum type base whole)
      (dirlookup k dp name)
      (fun result state => DirectoryHeld k frame dp inum type base whole state ∧
        (∀ pair ∈ result, 0 < (state.inode pair.1).ref) ∧
        result.map Prod.snd = (findEntry whole name).map (16 * ·) ∧
        result.map (fun pair => (state.inode pair.1).inum) =
          lookupName whole name) := by
  rintro state ⟨held, member, inv, stands⟩ result after run
  have spec := dirlookup_spec member name _ inv _ _ run
  rcases dirlookup_content member stands.1 name _ ⟨inv, fun _ _ => rfl⟩ _ _ run
    with ⟨agree, found⟩
  rcases LookedUp.hold member spec.1 with ⟨held, member, inv⟩
  have exists_ : inum < k.sb.ninodes := by
    rcases inv with ⟨own, good⟩
    exact good.table.inum_lt member
  exact ⟨⟨held, member, inv, stands.of_agree exists_ agree⟩,
    spec.1.referenced, found.lookup⟩

/-- `dirlink` in a directory that is held. -/
theorem dirlink_held_map (unshaped : frame.Unshaped) (name : Name)
    {number : Nat} (used : number ≠ 0) (fits : number < 65536)
    (exists_ : number < k.sb.ninodes) :
    Triple (DirectoryHeld k frame dp inum type base whole)
      (dirlink k dp name number)
      (fun result state => ∃ next,
        DirectoryHeld k frame dp inum type base next state ∧
          MapStep (lookupName whole) (.link name number) (.linked result)
            (lookupName next)) := by
  rintro state ⟨held, member, ⟨own, good⟩, stands⟩ result after run
  have spec := dirlink_spec member unshaped name exists_ _ ⟨own, good⟩ _ _ run
  have inside := good.table.inum_lt member
  cases dirlink_content good member unshaped name exists_ used fits _ rfl _ _
    run with
  | inserted inserted =>
      rcases inserted.directory with ⟨first, last, before, now, absent, map⟩
      cases stands.1.symm.trans before
      refine ⟨last, ⟨held, member, spec, now, ?_⟩, ?_⟩
      · exact fun other bound apart => (inserted.others other bound apart).trans
          (stands.2 other bound apart)
      · rw [funext map]
        exact .inserted absent
  | exists_ known mapped same =>
      exact ⟨whole, ⟨held, member, spec, stands.of_agree inside same⟩,
        .refused _ _⟩
  | full known absent cause same =>
      exact ⟨whole, ⟨held, member, spec, stands.of_agree inside same⟩,
        .refused _ _⟩

/-- One call is a step of the map. -/
theorem entryCall_step (unshaped : frame.Unshaped) {call : EntryCall}
    (valid : call.Valid k) :
    Triple (DirectoryHeld k frame dp inum type base whole)
      (entryCall k dp call)
      (fun answer state => ∃ next,
        DirectoryHeld k frame dp inum type base next state ∧
          MapStep (lookupName whole) call answer (lookupName next)) := by
  cases call with
  | lookup name =>
      refine Triple.bind (dirlookup_held name) (fun result => ?_)
      rcases result with _ | ⟨ip, off⟩
      · apply Triple.pure
        rintro state ⟨directory, _, _, answer⟩
        refine ⟨whole, directory, ?_⟩
        rw [Option.map_none] at answer
        rw [answer]
        exact .lookup name
      · refine Triple.bind (inodeAt_spec ip) (fun inode => ?_)
        apply Triple.pure
        rintro state ⟨⟨directory, _, _, answer⟩, rfl⟩
        refine ⟨whole, directory, ?_⟩
        rw [Option.map_some] at answer
        rw [answer]
        exact .lookup name
  | link name number =>
      rcases valid with ⟨used, fits, exists_⟩
      refine Triple.bind (dirlink_held_map unshaped name used fits exists_)
        (fun result => ?_)
      exact Triple.pure fun _ holds => holds

/-- A sequence of calls is a run of the map. -/
theorem entryCalls_run (unshaped : frame.Unshaped) (calls : List EntryCall)
    (valid : ∀ call ∈ calls, call.Valid k) :
    Triple (DirectoryHeld k frame dp inum type base whole)
      (entryCalls k dp calls)
      (fun answers state => ∃ last,
        DirectoryHeld k frame dp inum type base last state ∧
          MapRun (lookupName whole) calls answers (lookupName last)) := by
  induction calls generalizing whole with
  | nil => exact Triple.pure fun _ directory => ⟨whole, directory, .done _⟩
  | cons call rest induction =>
      rw [List.forall_mem_cons] at valid
      refine Triple.bind (entryCall_step unshaped valid.1) (fun answer => ?_)
      apply Triple.exists_pre
      intro next
      apply Triple.and_pre
      intro head
      refine Triple.bind (induction valid.2) (fun answers => ?_)
      apply Triple.pure
      rintro state ⟨last, directory, tail⟩
      exact ⟨last, directory, .step head tail⟩

end Refinement

/-! ## In every reachable state -/

section Reachable

variable {disk : Disk} {state locked after : Fs} {ip : Nat}

/-- A locked directory is held. -/
theorem directoryHeld_of_lock (consistent : Consistent k.sb disk)
    (reached : (fileSystem k disk).Reachable state)
    (used : 0 < (state.inode ip).ref)
    (lock : ilock k ip state = .ok ((), locked)) :
    ∃ frame whole, frame.Unshaped ∧
      content k state (state.inode ip).inum = some whole ∧
      DirectoryHeld k frame ip (state.inode ip).inum
        (locked.inode ip).copy.type (content k state) whole locked := by
  rcases (ready_of_reachable consistent reached).hold used with
    ⟨frame, own, held, loaded, unshaped, good⟩
  rcases ilock_content good _ rfl _ _ lock with ⟨taken, same⟩
  rcases content_some taken List.mem_cons_self with ⟨whole, known⟩
  refine ⟨frame, whole, unshaped, same ▸ known, _, List.mem_cons_self,
    ⟨own, taken⟩, known, ?_⟩
  rw [same]
  exact fun _ _ _ => rfl

/--
In every reachable state the calls `dirlookup` and `dirlink` on a locked
directory, in any order and any number, answer as the map from names to inode
numbers that the directory's bytes stand for: a lookup returns the number under
a name, and a link that returns 0 enters a name that was not there.  The numbers
that are linked are those of inodes of the disk, not 0 and below 65536.  The
bytes stand for the map that results, and no other file changes.
-/
theorem directory_refines_map {calls : List EntryCall}
    {answers : List EntryAnswer} (consistent : Consistent k.sb disk)
    (reached : (fileSystem k disk).Reachable state)
    (used : 0 < (state.inode ip).ref)
    (lock : ilock k ip state = .ok ((), locked))
    (valid : ∀ call ∈ calls, call.Valid k)
    (run : entryCalls k ip calls locked = .ok (answers, after)) :
    ∃ first last, content k state (state.inode ip).inum = some first ∧
      MapRun (lookupName first) calls answers (lookupName last) ∧
      Stands k (content k state) (state.inode ip).inum last
        (content k after) := by
  rcases directoryHeld_of_lock consistent reached used lock with
    ⟨frame, first, unshaped, known, directory⟩
  rcases entryCalls_run unshaped calls valid _ directory _ _ run with
    ⟨last, ⟨_, _, _, stands⟩, map⟩
  exact ⟨first, last, known, map, stands⟩

/--
In every reachable state `dirlookup` in a locked directory finds the first entry
in use that has the name, returns its offset and a table entry with a reference
for the inode it names, and changes no file; it returns nothing exactly if there
is none.
-/
theorem dirlookup_finds {name : Name} {result : Option (Nat × Nat)}
    (consistent : Consistent k.sb disk)
    (reached : (fileSystem k disk).Reachable state)
    (used : 0 < (state.inode ip).ref)
    (lock : ilock k ip state = .ok ((), locked))
    (run : dirlookup k ip name locked = .ok (result, after)) :
    Agree k (content k state) (content k after) ∧
      (∀ pair ∈ result, 0 < (after.inode pair.1).ref) ∧
      ∃ whole, content k state (state.inode ip).inum = some whole ∧
        result.map Prod.snd = (findEntry whole name).map (16 * ·) ∧
        result.map (fun pair => (after.inode pair.1).inum) =
          lookupName whole name := by
  rcases directoryHeld_of_lock consistent reached used lock with
    ⟨frame, whole, _, known, directory⟩
  rcases dirlookup_held name _ directory _ _ run with
    ⟨⟨_, _, _, stands⟩, referenced, offset, number⟩
  refine ⟨fun other exists_ => ?_, referenced, whole, known, offset, number⟩
  by_cases same : other = (state.inode ip).inum
  · rw [same, stands.1, known]
  · exact stands.2 other exists_ same

/--
In every reachable state `dirlink` of an inode in a locked directory returns 0
and makes the directory map the name to the inode in addition, or returns -1 and
changes no file.  It refuses a name only if it is there already, if the disk is
full or if the directory has its full size.
-/
theorem dirlink_inserts {name : Name} {number : Nat} {result : Int}
    (consistent : Consistent k.sb disk)
    (reached : (fileSystem k disk).Reachable state)
    (used : 0 < (state.inode ip).ref)
    (lock : ilock k ip state = .ok ((), locked))
    (nonzero : number ≠ 0) (fits : number < 65536)
    (exists_ : number < k.sb.ninodes)
    (run : dirlink k ip name number locked = .ok (result, after)) :
    LinkResult k (state.inode ip).inum name number (content k state) result
      after := by
  rcases (ready_of_reachable consistent reached).hold used with
    ⟨frame, own, held, loaded, unshaped, good⟩
  rcases ilock_content good _ rfl _ _ lock with ⟨taken, same⟩
  rw [← same]
  exact dirlink_content taken List.mem_cons_self unshaped name exists_ nonzero
    fits _ rfl _ _ run

end Reachable

/-! ## On a small disk -/

/-- A name is looked up and entered in the root directory, and looked up again
with another that was there. -/
def smallCalls : List EntryCall :=
  [.lookup [103], .link [103] 2, .lookup [103], .lookup [102], .link [102] 2]

theorem directory_refines_map_rootHeld :
    ∃ locked answers after,
      ilock smallKernel 0 rootHeld = .ok ((), locked) ∧
      entryCalls smallKernel 0 smallCalls locked = .ok (answers, after) ∧
      ∃ first last,
        content smallKernel rootHeld (rootHeld.inode 0).inum = some first ∧
        MapRun (lookupName first) smallCalls answers (lookupName last) ∧
        Stands smallKernel (content smallKernel rootHeld)
          (rootHeld.inode 0).inum last (content smallKernel after) := by
  have returned : (do
      ilock smallKernel 0
      entryCalls smallKernel 0 smallCalls : FsM _) rootHeld |>.isOk := by
    decide +kernel
  cases run : (do
      ilock smallKernel 0
      entryCalls smallKernel 0 smallCalls : FsM _) rootHeld with
  | error stop =>
      rw [run] at returned
      cases returned
  | ok pair =>
      rcases bind_eq_ok.mp run with ⟨_, locked, lock, calls⟩
      refine ⟨locked, _, _, lock, calls,
        directory_refines_map smallDisk_consistent rootHeld_reachable
          (by decide +kernel) lock ?_ calls⟩
      have room : 2 < smallKernel.sb.ninodes := by decide +kernel
      simp [smallCalls, EntryCall.Valid, room]

theorem dirlookup_finds_rootHeld :
    ∃ locked result after,
      ilock smallKernel 0 rootHeld = .ok ((), locked) ∧
      dirlookup smallKernel 0 [102] locked = .ok (result, after) ∧
      Agree smallKernel (content smallKernel rootHeld)
        (content smallKernel after) ∧
      (∀ pair ∈ result, 0 < (after.inode pair.1).ref) ∧
      ∃ whole, content smallKernel rootHeld (rootHeld.inode 0).inum =
          some whole ∧
        result.map Prod.snd = (findEntry whole [102]).map (16 * ·) ∧
        result.map (fun pair => (after.inode pair.1).inum) =
          lookupName whole [102] := by
  have returned : (do
      ilock smallKernel 0
      dirlookup smallKernel 0 [102] : FsM _) rootHeld |>.isOk := by
    decide +kernel
  cases run : (do
      ilock smallKernel 0
      dirlookup smallKernel 0 [102] : FsM _) rootHeld with
  | error stop =>
      rw [run] at returned
      cases returned
  | ok pair =>
      rcases bind_eq_ok.mp run with ⟨_, locked, lock, lookup⟩
      exact ⟨locked, _, _, lock, lookup,
        dirlookup_finds smallDisk_consistent rootHeld_reachable
          (by decide +kernel) lock lookup⟩

theorem dirlink_inserts_rootHeld :
    ∃ locked result after,
      ilock smallKernel 0 rootHeld = .ok ((), locked) ∧
      dirlink smallKernel 0 [103] 2 locked = .ok (result, after) ∧
      LinkResult smallKernel (rootHeld.inode 0).inum [103] 2
        (content smallKernel rootHeld) result after := by
  have returned : (do
      ilock smallKernel 0
      dirlink smallKernel 0 [103] 2 : FsM _) rootHeld |>.isOk := by
    decide +kernel
  cases run : (do
      ilock smallKernel 0
      dirlink smallKernel 0 [103] 2 : FsM _) rootHeld with
  | error stop =>
      rw [run] at returned
      cases returned
  | ok pair =>
      rcases bind_eq_ok.mp run with ⟨_, locked, lock, link⟩
      exact ⟨locked, _, _, lock, link,
        dirlink_inserts smallDisk_consistent rootHeld_reachable
          (by decide +kernel) lock (by decide) (by decide)
          (by decide +kernel) link⟩

end OSCourse.FileSystem
