import OSCourse.FileSystem.WriteThrough

/-!
# Paths as walks in the tree of directories

The directories of a disk are maps from names to inode numbers.  A path stands
for a walk from one of them to the next.  In every reachable state `namei` and
`nameiparent` end where this walk ends, whatever entries of the inode table they
take and give up on the way.
-/

namespace OSCourse.FileSystem

open OSCourse.Library.ByteBlock
open OSCourse.Library.Hoare
open OSCourse.Library.TransitionSystem

variable {k : Kernel} {frame : Frame} {own : Owners} {held : List Hold}

/-! ## Walks -/

/-- The directories: maps from names to inode numbers. -/
abbrev Namespace := Nat → Option (Name → Option Nat)

/-- The walk along `names` from the inode `inum`; with `parent` it stops in the
directory that should have the last name. -/
def pathWalk (dirs : Namespace) (parent : Bool) :
    Nat → Name → List Name → Option (Nat × Name)
  | inum, last, [] => if parent then none else some (inum, last)
  | inum, _, name :: rest =>
      match dirs inum with
      | none => none
      | some map =>
          if parent && rest.isEmpty then some (inum, name)
          else
            match map name with
            | none => none
            | some next => pathWalk dirs parent next name rest

/-- The directories, given the types and the contents of all inodes. -/
def directoriesOf (kinds : Nat → BitVec 16) (base : Contents) : Namespace :=
  fun inum => if kinds inum = tDir then (base inum).map lookupName else none

/-- The directories of a state. -/
def directories (k : Kernel) (state : Fs) : Namespace :=
  directoriesOf (fun inum => (copyOf k state inum).type) (content k state)

/-- Where a walk starts: the root, or the current directory of process `p`. -/
def startOf (state : Fs) (p : Nat) (path : Path) : Option Nat :=
  if path.head? = some slash then some rootIno
  else (state.proc p).cwd.map fun ip => (state.inode ip).inum

/-- Every file has the type that `kinds` gives, or is free. -/
def Frame.withKinds (frame : Frame) (kinds : Nat → BitVec 16) : Frame :=
  { frame with shape := fun inum type _ => type = 0 ∨ type = kinds inum }

theorem Frame.withKinds_allowsFree (frame : Frame)
    (kinds : Nat → BitVec 16) : (frame.withKinds kinds).AllowsFree :=
  fun _ _ _ _ => .inl rfl

theorem Good.withKinds {state : Fs}
    (good : Good k frame own none held state) :
    Good k (frame.withKinds fun inum => (copyOf k state inum).type) own none
      held state :=
  { good with
    shape := fun inum _ => .inr (good.copyOf_type inum).symm }

/-! ## The walk of `namex` -/

section Walk

variable {outside : List Hold} {kinds links : Nat → BitVec 16}
  {base : Contents} {ip inum : Nat} {type : BitVec 16}
  {loaded : Option (BitVec 16)}

/-- The state of a walk that holds `held`: the types, the links and the contents
are those at its start, but some files were freed. -/
def Walking (k : Kernel) (frame : Frame) (kinds links : Nat → BitVec 16)
    (base : Contents) (outside held : List Hold) (state : Fs) : Prop :=
  Inv k (frame.withKinds kinds) held state ∧ Backed k outside links state ∧
    ShrunkFrom k outside links base (content k state)

/-- A directory that is locked is one from which the walk goes on. -/
theorem Walking.directory {state : Fs}
    (walking : Walking k frame kinds links base outside held state)
    (member : ⟨ip, inum, some type⟩ ∈ held) :
    kinds inum = type ∧ (state.inode ip).copy.type = type ∧
      ∃ whole, content k state inum = some whole ∧ base inum = some whole := by
  rcases walking with ⟨⟨own, good⟩, _, shrunk⟩
  rcases good.table.loaded_of_hold member with ⟨number, _, kind, loaded⟩
  have exists_ := good.table.inum_lt member
  rcases content_some good member with ⟨whole, known⟩
  refine ⟨?_, kind, whole, known, ?_⟩
  · have disk : (k.sb.dinode state.disk inum).type = type := by
      rw [← number, ← loaded.agrees.type, kind]
    rcases good.shape inum exists_ with free | same
    · rw [disk, ← kind] at free
      exact absurd free loaded.live
    · rw [← same, disk]
  · rcases shrunk inum exists_ with same | ⟨freed, _⟩
    · rw [← same, known]
    · rw [known] at freed
      cases freed

theorem Walking.swap {first second : Hold} {state : Fs}
    (walking : Walking k frame kinds links base outside
      (first :: second :: held) state) :
    Walking k frame kinds links base outside (second :: first :: held) state :=
  ⟨walking.1.swap, walking.2⟩

theorem ilock_walks :
    Triple
      (Walking k frame kinds links base outside
        (⟨ip, inum, loaded⟩ :: held))
      (ilock k ip)
      (fun _ state => ∃ type, Walking k frame kinds links base outside
        (⟨ip, inum, some type⟩ :: held) state) := by
  rintro state ⟨⟨own, good⟩, backed, shrunk⟩ result after run
  rcases ilock_content good _ rfl _ _ run with ⟨taken, same⟩
  exact ⟨_, ⟨own, taken⟩, ilock_backed _ ⟨⟨own, good⟩, backed⟩ _ _ run,
    same ▸ shrunk⟩

theorem iunlock_walks :
    Triple (Walking k frame kinds links base outside held) (iunlock ip)
      (fun _ => Walking k frame kinds links base outside held) := by
  rintro state ⟨inv, backed, shrunk⟩ result after run
  refine ⟨iunlock_spec ip _ inv _ _ run, iunlock_backed _ backed _ _ run, ?_⟩
  rcases bind_eq_ok.mp run with ⟨_, _, ⟨⟩, run⟩
  split at run
  · cases run
  · cases run
    rw [(sameInodes_locked state ip false).content]
    exact shrunk

theorem iput_walks (rest : ∀ hold ∈ outside, hold ∈ held) :
    Triple
      (Walking k frame kinds links base outside
        (⟨ip, inum, loaded⟩ :: held))
      (iput k ip)
      (fun _ => Walking k frame kinds links base outside held) := by
  intro state walking result after run
  exact ⟨iput_spec ⟨ip, inum, loaded⟩ (frame.withKinds_allowsFree kinds) _
    walking.1 _ _ run, iput_backed rest _ walking _ _ run⟩

theorem iunlockput_walks (rest : ∀ hold ∈ outside, hold ∈ held) :
    Triple
      (Walking k frame kinds links base outside
        (⟨ip, inum, loaded⟩ :: held))
      (iunlockput k ip)
      (fun _ => Walking k frame kinds links base outside held) :=
  Triple.bind iunlock_walks (fun _ => iput_walks rest)

/-- What `dirlookup` returns on a walk. -/
def StepTo (k : Kernel) (frame : Frame) (kinds links : Nat → BitVec 16)
    (base : Contents) (outside held : List Hold) (next : Option Nat) :
    Option (Nat × Nat) → Fs → Prop
  | none, state =>
      Walking k frame kinds links base outside held state ∧ next = none
  | some (jp, _), state => ∃ number,
      Walking k frame kinds links base outside (⟨jp, number, none⟩ :: held)
        state ∧ next = some number

theorem dirlookup_walks (member : ⟨ip, inum, some type⟩ ∈ held)
    {whole : List Byte} (bytes : base inum = some whole) (name : Name) :
    Triple (Walking k frame kinds links base outside held) (dirlookup k ip name)
      (StepTo k frame kinds links base outside held
        (lookupName whole name)) := by
  intro state walking result after run
  rcases walking.directory member with ⟨_, _, _, known, same⟩
  cases bytes.symm.trans same
  rcases walking with ⟨inv, backed, shrunk⟩
  have spec := (dirlookup_spec member name _ inv _ _ run).1
  have backed := dirlookup_backed member name _ ⟨inv, backed⟩ _ _ run
  rcases dirlookup_content member known name _ ⟨inv, fun _ _ => rfl⟩ _ _ run
    with ⟨agree, found⟩
  have number := found.lookup.2
  rcases result with _ | ⟨jp, off⟩
  · exact ⟨⟨spec, backed, shrunk.agree agree⟩, number.symm⟩
  · rcases spec with ⟨⟨next, inv⟩, _⟩
    refine ⟨next, ⟨inv, backed, shrunk.agree agree⟩, ?_⟩
    rcases inv with ⟨own, good⟩
    rw [← number, Option.map_some,
      (good.table.holds _ List.mem_cons_self).1]

/-- Where a walk has ended. -/
def EndsAt (k : Kernel) (frame : Frame) (kinds links : Nat → BitVec 16)
    (base : Contents) (outside : List Hold) (walk : Option (Nat × Name)) :
    Option (Nat × Name) → Fs → Prop
  | none, state =>
      Walking k frame kinds links base outside outside state ∧ walk = none
  | some (ip, name), state => ∃ number loaded,
      Walking k frame kinds links base outside (⟨ip, number, loaded⟩ :: outside)
        state ∧ walk = some (number, name)

theorem namexLoop_walks (parent : Bool) (name : Name) (names : List Name) :
    Triple
      (Walking k frame kinds links base outside
        (⟨ip, inum, loaded⟩ :: outside))
      (namexLoop k parent ip name names)
      (EndsAt k frame kinds links base outside
        (pathWalk (directoriesOf kinds base) parent inum name names)) := by
  induction names generalizing ip inum loaded name with
  | nil =>
      apply Triple.ite
      · intro stops
        refine Triple.bind (iput_walks fun _ => id) (fun _ => ?_)
        exact Triple.pure fun _ walking => ⟨walking, if_pos stops⟩
      · intro goes
        exact Triple.pure fun _ walking => ⟨inum, loaded, walking, if_neg goes⟩
  | cons next rest induction =>
      refine Triple.bind ilock_walks (fun _ => ?_)
      apply Triple.exists_pre
      intro type
      have stop {walk : Option (Nat × Name)} (none_ : walk = none) :
          Triple
            (Walking k frame kinds links base outside
              (⟨ip, inum, some type⟩ :: outside))
            (do iunlockput k ip; return none)
            (EndsAt k frame kinds links base outside walk) :=
        Triple.bind (iunlockput_walks fun _ => id)
          (fun _ => Triple.pure fun _ walking => ⟨walking, none_⟩)
      refine Triple.bind (inodeAt_spec ip) (fun inode => ?_)
      apply Triple.at_state
      rintro state ⟨walking, rfl⟩
      rcases walking.directory List.mem_cons_self with
        ⟨kind, copy, whole, _, known⟩
      have start : ∀ current, current = state →
          Walking k frame kinds links base outside
            (⟨ip, inum, some type⟩ :: outside) current := by
        rintro _ rfl
        exact walking
      apply Triple.ite
      · intro file
        refine (stop ?_).strengthen start
        rw [pathWalk, directoriesOf, kind, if_neg (copy ▸ file)]
      · intro directory
        have isDirectory : type = tDir := by
          rw [← copy]
          simpa using directory
        have map : directoriesOf kinds base inum = some (lookupName whole) := by
          rw [directoriesOf, kind, if_pos isDirectory, known, Option.map_some]
        apply Triple.ite
        · intro last
          refine Triple.bind (iunlock_walks.strengthen start) (fun _ => ?_)
          refine Triple.pure fun _ walking => ⟨inum, some type, walking, ?_⟩
          rw [pathWalk, map]
          exact if_pos last
        · intro more
          refine Triple.bind
            ((dirlookup_walks List.mem_cons_self known next).strengthen start)
            (fun result => ?_)
          rcases result with _ | ⟨jp, off⟩
          · apply Triple.and_pre
            intro missing
            refine stop ?_
            rw [pathWalk, map]
            simp only [if_neg more, missing]
          · apply Triple.exists_pre
            intro number
            apply Triple.and_pre
            intro found
            refine Triple.bind ((iunlockput_walks fun hold member =>
              List.mem_cons_of_mem _ member).strengthen
                fun _ walking => walking.swap) (fun _ => ?_)
            refine (induction next).weaken ?_
            rw [pathWalk, map]
            simp only [if_neg more, found]
            exact fun _ _ holds => holds

/-! ## From the start of a path -/

/-- At first all entries in use are held from outside. -/
theorem Good.walking {state : Fs}
    (good : Good k frame own none outside state) :
    Walking k frame (fun inum => (copyOf k state inum).type)
      (fun inum => (k.sb.dinode state.disk inum).nlink) (content k state)
      outside outside state :=
  ⟨⟨own, good.withKinds⟩,
    ⟨fun _ used _ => .inl (good.table.exists_hold used), fun _ _ _ => rfl⟩,
    fun _ _ => .inl rfl⟩

theorem iget_walks {number : Nat} (exists_ : number < k.sb.ninodes) :
    Triple (Walking k frame kinds links base outside held) (iget k number)
      (fun ip state => Walking k frame kinds links base outside
        (⟨ip, number, none⟩ :: held) state) := by
  rintro state ⟨inv, backed, shrunk⟩ ip after run
  refine ⟨iget_spec exists_ _ inv _ _ run, backed.of_same (iget_same run), ?_⟩
  rw [(iget_content run).1]
  exact shrunk

theorem idup_walks {hold : Hold} (member : hold ∈ held) :
    Triple (Walking k frame kinds links base outside held) (idup hold.slot)
      (fun ip state => Walking k frame kinds links base outside
        (⟨ip, hold.inum, none⟩ :: held) state) := by
  rintro state ⟨inv, backed, shrunk⟩ ip after run
  have spec := idup_spec member _ inv _ _ run
  rcases inv with ⟨own, good⟩
  have used := good.table.ref_pos member
  cases run
  refine ⟨spec, backed.of_same (sameCopies_withInode fun _ valid =>
    ⟨used, valid, rfl, rfl⟩), ?_⟩
  rw [content_withInode ?_ fun _ _ => rfl]
  · exact shrunk
  · intro inum
    simp [cached, Fs.withInode, used]

end Walk

section Reachable

variable {disk : Disk} {state after : Fs} {p : Nat} {path : Path}

/-- The contents stay, but files without links to which no entry of the table
refers may be freed. -/
def Shrunk (k : Kernel) (before after : Fs) : Prop :=
  ∀ inum < k.sb.ninodes, content k after inum = content k before inum ∨
    content k after inum = none ∧
      (k.sb.dinode before.disk inum).nlink = 0 ∧
      ∀ ip, 0 < (before.inode ip).ref → (before.inode ip).inum ≠ inum

/-- What the walk frees is held neither by the walk nor from outside. -/
theorem Good.shrunk {outside : List Hold}
    (good : Good k frame own none outside state)
    (shrunk : ShrunkFrom k outside
      (fun inum => (k.sb.dinode state.disk inum).nlink) (content k state)
      (content k after)) : Shrunk k state after := by
  intro inum exists_
  rcases shrunk inum exists_ with same | ⟨freed, unlinked, unheld⟩
  · exact .inl same
  · refine .inr ⟨freed, unlinked, fun ip used same => ?_⟩
    rcases good.table.exists_hold used with ⟨hold, member, rfl⟩
    exact unheld hold member ((good.table.holds hold member).1.symm.trans same)

/-- The inode from which a walk starts. -/
theorem startInode_walks {initial : Nat → BitVec 16} {ip : Nat} {next : Fs}
    (ready : Ready k initial state)
    (run : startInode k p path state = .ok (ip, next)) :
    ∃ frame own outside start, startOf state p path = some start ∧
      Good k frame own none outside state ∧
      Walking k frame (fun inum => (copyOf k state inum).type)
        (fun inum => (k.sb.dinode state.disk inum).nlink) (content k state)
        outside (⟨ip, start, none⟩ :: outside) next := by
  rcases ready with ⟨frame, held, _, _, tables, own, good⟩
  have walking := good.walking
  unfold startInode at run
  split at run
  · next root =>
    exact ⟨frame, own, _, rootIno, if_pos root, good,
      iget_walks k.sb.rootExists _ walking _ _ run⟩
  · next relative =>
    rcases bind_eq_ok.mp run with ⟨_, _, ⟨⟩, run⟩
    cases current : (state.proc p).cwd with
    | none =>
        rw [current] at run
        cases run
    | some cwd =>
        rw [current] at run
        rw [good.proc] at current
        rcases tables.cwd_held p cwd current with ⟨hold, member, rfl⟩
        refine ⟨frame, own, _, hold.inum, ?_, good,
          idup_walks member _ walking _ _ run⟩
        rw [startOf, if_neg relative, good.proc, current, Option.map_some,
          (good.table.holds hold member).1]

/--
In every reachable state `namex`, and with it `namei` and `nameiparent`, returns
where the walk along the elements of the path ends: the walk starts at the root
or the current directory and goes on by looking up each name in the map that the
directory stands for.  The contents of all files stay as they are, except that a
file without links, to which nobody referred before the walk, is freed when the
walk gives up its own reference to it.
-/
theorem namex_walks_path {parent : Bool} {result : Option (Nat × Name)}
    (consistent : Consistent k.sb disk)
    (reached : (fileSystem k disk).Reachable state)
    (run : namex k p path parent state = .ok (result, after)) :
    (∃ start, startOf state p path = some start ∧
      result.map (fun found => ((after.inode found.1).inum, found.2)) =
        pathWalk (directories k state) parent start [] (elements path)) ∧
      Shrunk k state after := by
  rcases bind_eq_ok.mp run with ⟨ip, between, begin_, run⟩
  rcases startInode_walks (ready_of_reachable consistent reached) begin_ with
    ⟨frame, own, outside, start, from_, good, walking⟩
  have ended := namexLoop_walks parent [] (elements path) _ walking _ _ run
  refine ⟨⟨start, from_, ?_⟩, good.shrunk ?_⟩
  · rcases result with _ | ⟨jp, name⟩
    · exact ended.2.symm
    · rcases ended with ⟨number, loaded, ⟨⟨own, good⟩, _⟩, walk⟩
      rw [directories, walk, Option.map_some,
        (good.table.holds _ List.mem_cons_self).1]
  · rcases result with _ | ⟨jp, name⟩
    · exact ended.1.2.2
    · rcases ended with ⟨number, loaded, walking, _⟩
      exact walking.2.2

end Reachable

/-! ## On a small disk -/

/-- The path of the file `f` is walked. -/
theorem namex_walks_path_rootHeld :
    ∃ result after,
      namex smallKernel 0 [slash, 102] false rootHeld = .ok (result, after) ∧
      (∃ start, startOf rootHeld 0 [slash, 102] = some start ∧
        result.map (fun found => ((after.inode found.1).inum, found.2)) =
          pathWalk (directories smallKernel rootHeld) false start []
            (elements [slash, 102])) ∧
      Shrunk smallKernel rootHeld after := by
  have returned :
      (namex smallKernel 0 [slash, 102] false rootHeld).isOk := by
    decide +kernel
  cases run : namex smallKernel 0 [slash, 102] false rootHeld with
  | error stop =>
      rw [run] at returned
      cases returned
  | ok pair =>
      exact ⟨_, _, rfl, namex_walks_path smallDisk_consistent
        rootHeld_reachable run⟩

end OSCourse.FileSystem
