import OSCourse.FileSystem.Calls

/-!
# Open files and processes

Between calls every reference to an inode belongs to an open file or is the
current directory of a process, and every reference to an open file is that of a
descriptor.  A file that may be written refers to no directory.  Every call
keeps this together with the invariant.
-/

namespace OSCourse.FileSystem

open OSCourse.Library.Hoare
open OSCourse.Library.TransitionSystem

/-! ## Who holds the references -/

/-- A place outside `fs.c` that keeps a reference to an inode. -/
inductive Holder where
  | cwd (p : Nat)
  | file (f : Nat)
deriving DecidableEq

/-- An open file and its reference. -/
structure FileHold (file : File) (hold : Hold) : Prop where
  opened : file.type ≠ .none
  ref : 0 < file.ref
  ip : file.ip = hold.slot
  loaded : ∃ type, hold.loaded = some type ∧
    (file.writable = true → type ≠ tDir)

/-- The descriptors of a file, each with its process. -/
def Describes (proc : Nat → Proc) (f : Nat) (pairs : Finset (Nat × Nat)) :
    Prop :=
  ∀ p fd, (p, fd) ∈ pairs ↔ (proc p).ofile fd = some f

/-- The open files and the processes hold the references `held`, and the
descriptors those to the files. -/
structure Tables (file : Nat → File) (proc : Nat → Proc)
    (held : List (Holder × Hold)) : Prop where
  nodup : (held.map Prod.fst).Nodup
  cwds : ∀ p hold, (.cwd p, hold) ∈ held → (proc p).cwd = some hold.slot
  cwdHeld : ∀ p ip, (proc p).cwd = some ip →
    ∃ hold, (Holder.cwd p, hold) ∈ held ∧ hold.slot = ip
  files : ∀ f hold, (.file f, hold) ∈ held → FileHold (file f) hold
  fileHeld : ∀ f, (file f).type ≠ .none →
    ∃ hold, (Holder.file f, hold) ∈ held
  descriptors : ∀ p fd f, (proc p).ofile fd = some f → (file f).type ≠ .none
  counted : ∀ f, (file f).type ≠ .none →
    ∃ pairs, Describes proc f pairs ∧ (file f).ref = pairs.card

/-- The descriptors after a change of one of them. -/
theorem ofile_update (proc : Nat → Proc) (p fd q gd : Nat)
    (entry : Option Nat) :
    (Function.update proc p
        { proc p with ofile := Function.update (proc p).ofile fd entry }
        q).ofile gd =
      if q = p ∧ gd = fd then entry else (proc q).ofile gd := by
  by_cases process : q = p
  · subst process
    simp [Function.update_apply]
  · simp [process]

namespace Describes

variable {proc : Nat → Proc} {f g p fd : Nat} {pairs : Finset (Nat × Nat)}
  {entry : Option Nat}

/-- Another process may change its current directory. -/
theorem congr (describes : Describes proc f pairs) {proc' : Nat → Proc}
    (same : ∀ q, (proc' q).ofile = (proc q).ofile) :
    Describes proc' f pairs := by
  intro q gd
  rw [same]
  exact describes q gd

/-- A change between other files. -/
theorem other (describes : Describes proc f pairs)
    (before : (proc p).ofile fd ≠ some f) (after : entry ≠ some f) :
    Describes
      (Function.update proc p
        { proc p with ofile := Function.update (proc p).ofile fd entry })
      f pairs := by
  intro q gd
  rw [ofile_update, describes q gd]
  grind

/-- A free descriptor is given to the file. -/
theorem insert (describes : Describes proc f pairs) (p fd : Nat) :
    Describes
      (Function.update proc p
        { proc p with ofile := Function.update (proc p).ofile fd (some f) })
      f (insert (p, fd) pairs) := by
  intro q gd
  rw [ofile_update, Finset.mem_insert, describes q gd, Prod.mk.injEq]
  grind

/-- A descriptor of the file is given back. -/
theorem erase (describes : Describes proc f pairs) (p fd : Nat) :
    Describes
      (Function.update proc p
        { proc p with ofile := Function.update (proc p).ofile fd none })
      f (pairs.erase (p, fd)) := by
  intro q gd
  rw [ofile_update, Finset.mem_erase, describes q gd, Ne, Prod.mk.injEq]
  grind

end Describes

namespace Tables

variable {file : Nat → File} {proc : Nat → Proc}
  {held rest : List (Holder × Hold)} {f p fd : Nat} {hold : Hold}

theorem perm (tables : Tables file proc held)
    (same : held.Perm rest) : Tables file proc rest where
  nodup := (same.map Prod.fst).nodup_iff.mp tables.nodup
  cwds p hold member := tables.cwds p hold (same.mem_iff.mpr member)
  cwdHeld p ip current := by
    rcases tables.cwdHeld p ip current with ⟨hold, member, slot⟩
    exact ⟨hold, same.mem_iff.mp member, slot⟩
  files f hold member := tables.files f hold (same.mem_iff.mpr member)
  fileHeld f opened := by
    rcases tables.fileHeld f opened with ⟨hold, member⟩
    exact ⟨hold, same.mem_iff.mp member⟩
  descriptors := tables.descriptors
  counted := tables.counted

/-- A free entry of the file table is closed. -/
theorem closed_of_free (tables : Tables file proc held)
    (free : (file f).ref = 0) : (file f).type = .none := by
  by_contra opened
  rcases tables.fileHeld f opened with ⟨hold, member⟩
  have ref := (tables.files f hold member).ref
  omega

/-- A file with one reference has one descriptor. -/
theorem descriptor_unique (tables : Tables file proc held)
    (one : (file f).ref = 1) (entry : (proc p).ofile fd = some f)
    (q gd : Nat) (other : (proc q).ofile gd = some f) : q = p ∧ gd = fd := by
  rcases tables.counted f (tables.descriptors p fd f entry) with
    ⟨pairs, describes, card⟩
  have single := Finset.card_le_one.mp (card.symm.trans one).le _
    ((describes q gd).mpr other) _ ((describes p fd).mpr entry)
  exact Prod.mk.inj single

/-- A changed descriptor leaves the counts of other files alone. -/
theorem counted_apart (tables : Tables file proc held) {entry : Option Nat}
    (opened : (file f).type ≠ .none) (before : (proc p).ofile fd ≠ some f)
    (after : entry ≠ some f) :
    ∃ pairs,
      Describes
        (Function.update proc p
          { proc p with ofile := Function.update (proc p).ofile fd entry })
        f pairs ∧ (file f).ref = pairs.card := by
  rcases tables.counted f opened with ⟨pairs, describes, card⟩
  exact ⟨pairs, describes.other before after, card⟩

/-- A changed current directory leaves the counts of the files alone. -/
theorem counted_cwd (tables : Tables file proc held) (cwd : Option Nat)
    (opened : (file f).type ≠ .none) :
    ∃ pairs,
      Describes (Function.update proc p { proc p with cwd := cwd }) f pairs ∧
        (file f).ref = pairs.card := by
  rcases tables.counted f opened with ⟨pairs, describes, card⟩
  refine ⟨pairs, describes.congr fun q => ?_, card⟩
  simp only [Function.update_apply]
  split <;> simp [*]

/-- The offsets of the files do not matter. -/
theorem congr (tables : Tables file proc held) {file' : Nat → File}
    (same : ∀ f, ∃ off, file' f = { file f with off := off }) :
    Tables file' proc held where
  nodup := tables.nodup
  cwds := tables.cwds
  cwdHeld := tables.cwdHeld
  files f hold member := by
    rcases same f with ⟨off, equal⟩
    have known := tables.files f hold member
    rw [equal]
    exact ⟨known.opened, known.ref, known.ip, known.loaded⟩
  fileHeld f opened := by
    rcases same f with ⟨off, equal⟩
    rw [equal] at opened
    exact tables.fileHeld f opened
  descriptors p fd f entry := by
    rcases same f with ⟨off, equal⟩
    rw [equal]
    exact tables.descriptors p fd f entry
  counted f opened := by
    rcases same f with ⟨off, equal⟩
    rw [equal] at opened ⊢
    exact tables.counted f opened

/-- A file is opened and gets a descriptor. -/
theorem opens (tables : Tables file proc held) {new : File}
    (closed : (file f).type = .none) (known : FileHold new hold)
    (one : new.ref = 1) (free : (proc p).ofile fd = none) :
    Tables (Function.update file f new)
      (Function.update proc p
        { proc p with ofile := Function.update (proc p).ofile fd (some f) })
      ((.file f, hold) :: held) := by
  have absent : ∀ hold, (Holder.file f, hold) ∉ held :=
    fun hold member => (tables.files f hold member).opened closed
  have undescribed : ∀ q gd, (proc q).ofile gd ≠ some f :=
    fun q gd entry => tables.descriptors q gd f entry closed
  have opened := known.opened
  constructor
  case nodup =>
    refine List.nodup_cons.mpr ⟨?_, tables.nodup⟩
    intro member
    rcases List.mem_map.mp member with ⟨⟨holder, hold⟩, member, rfl⟩
    exact absent hold member
  case cwds =>
    intro q other member
    have cwds := tables.cwds q other
    grind
  case cwdHeld =>
    intro q ip current
    have cwdHeld := tables.cwdHeld q ip
    grind
  case files =>
    intro g other member
    have files := tables.files g other
    have missing := absent other
    grind
  case fileHeld =>
    intro g
    have fileHeld := tables.fileHeld g
    grind
  case descriptors =>
    intro q gd g
    have descriptors := tables.descriptors q gd g
    rw [ofile_update]
    grind
  case counted =>
    intro g
    by_cases same : g = f
    · subst same
      have none : Describes proc g ∅ :=
        fun q gd => iff_of_false (Finset.notMem_empty _) (undescribed q gd)
      intro _
      exact ⟨_, none.insert p fd, by simp [one]⟩
    · rw [Function.update_of_ne same]
      intro elsewhere
      exact tables.counted_apart elsewhere (by simp [free])
        (by simpa using Ne.symm same)

/-- The reference count of an open file follows its descriptors. -/
theorem recounts (tables : Tables file proc held) {entry : Option Nat}
    {pairs : Finset (Nat × Nat)} (opened : (file f).type ≠ .none)
    (describes : Describes
      (Function.update proc p
        { proc p with ofile := Function.update (proc p).ofile fd entry })
      f pairs)
    (nonempty : 0 < pairs.card)
    (apart : ∀ g, g ≠ f → (proc p).ofile fd ≠ some g ∧ entry ≠ some g) :
    Tables (Function.update file f { file f with ref := pairs.card })
      (Function.update proc p
        { proc p with ofile := Function.update (proc p).ofile fd entry })
      held := by
  constructor
  case nodup => exact tables.nodup
  case cwds =>
    intro q other member
    have cwds := tables.cwds q other
    grind
  case cwdHeld =>
    intro q ip current
    have cwdHeld := tables.cwdHeld q ip
    grind
  case files =>
    intro g other member
    have known := tables.files g other member
    by_cases same : g = f
    · subst same
      rw [Function.update_self]
      exact ⟨known.opened, nonempty, known.ip, known.loaded⟩
    · rwa [Function.update_of_ne same]
  case fileHeld =>
    intro g
    have fileHeld := tables.fileHeld g
    grind
  case descriptors =>
    intro q gd g
    have descriptors := tables.descriptors q gd g
    have unchanged := apart g
    rw [ofile_update]
    grind
  case counted =>
    intro g
    by_cases same : g = f
    · subst same
      rw [Function.update_self]
      exact fun _ => ⟨pairs, describes, rfl⟩
    · rw [Function.update_of_ne same]
      intro elsewhere
      exact tables.counted_apart elsewhere (apart g same).1 (apart g same).2

/-- A file gets another descriptor. -/
theorem dups (tables : Tables file proc held)
    (opened : (file f).type ≠ .none) (free : (proc p).ofile fd = none) :
    Tables
      (Function.update file f { file f with ref := (file f).ref + 1 })
      (Function.update proc p
        { proc p with ofile := Function.update (proc p).ofile fd (some f) })
      held := by
  rcases tables.counted f opened with ⟨pairs, describes, card⟩
  have fresh : (p, fd) ∉ pairs := by
    rw [describes p fd, free]
    simp
  have more : (insert (p, fd) pairs).card = (file f).ref + 1 := by
    rw [Finset.card_insert_of_notMem fresh, card]
  rw [← more]
  refine tables.recounts opened (describes.insert p fd) ?_ ?_
  · rw [more]
    exact Nat.succ_pos _
  · exact fun g other => ⟨by simp [free], by simpa using Ne.symm other⟩

/-- A descriptor of a file that has others is given back. -/
theorem shares (tables : Tables file proc held)
    (shared : 1 < (file f).ref) (entry : (proc p).ofile fd = some f) :
    Tables
      (Function.update file f { file f with ref := (file f).ref - 1 })
      (Function.update proc p
        { proc p with ofile := Function.update (proc p).ofile fd none })
      held := by
  have opened := tables.descriptors p fd f entry
  rcases tables.counted f opened with ⟨pairs, describes, card⟩
  have member : (p, fd) ∈ pairs := (describes p fd).mpr entry
  have fewer : (pairs.erase (p, fd)).card = (file f).ref - 1 := by
    rw [Finset.card_erase_of_mem member, card]
  rw [← fewer]
  refine tables.recounts opened (describes.erase p fd) ?_ ?_
  · rw [fewer]
    exact Nat.sub_pos_of_lt shared
  · exact fun g other => ⟨by simp [entry, Ne.symm other], by simp⟩

/-- A file is closed and its last descriptor given back. -/
theorem closes (tables : Tables file proc ((.file f, hold) :: rest))
    {new : File} (closed : new.type = .none) (one : (file f).ref = 1)
    (entry : (proc p).ofile fd = some f) :
    Tables (Function.update file f new)
      (Function.update proc p
        { proc p with ofile := Function.update (proc p).ofile fd none })
      rest := by
  have absent : ∀ hold, (Holder.file f, hold) ∉ rest := by
    intro other member
    exact (List.nodup_cons.mp tables.nodup).1
      (List.mem_map.mpr ⟨_, member, rfl⟩)
  constructor
  case nodup => exact (List.nodup_cons.mp tables.nodup).2
  case cwds =>
    intro q other member
    have cwds := tables.cwds q other (List.mem_cons_of_mem _ member)
    grind
  case cwdHeld =>
    intro q ip current
    have cwdHeld := tables.cwdHeld q ip
    grind
  case files =>
    intro g other member
    have files := tables.files g other (List.mem_cons_of_mem _ member)
    have missing := absent other
    grind
  case fileHeld =>
    intro g
    have fileHeld := tables.fileHeld g
    grind
  case descriptors =>
    intro q gd g
    have descriptors := tables.descriptors q gd g
    have last := tables.descriptor_unique one entry q gd
    rw [ofile_update]
    grind
  case counted =>
    intro g
    by_cases same : g = f
    · subst same
      simp [closed]
    · rw [Function.update_of_ne same]
      intro elsewhere
      exact tables.counted_apart elsewhere (by simp [entry, Ne.symm same])
        (by simp)

/-- A process gives up its current directory. -/
theorem drops_cwd (tables : Tables file proc ((.cwd p, hold) :: rest)) :
    Tables file (Function.update proc p { proc p with cwd := none })
      rest := by
  have absent : ∀ hold, (Holder.cwd p, hold) ∉ rest := by
    intro other member
    exact (List.nodup_cons.mp tables.nodup).1
      (List.mem_map.mpr ⟨_, member, rfl⟩)
  constructor
  case nodup => exact (List.nodup_cons.mp tables.nodup).2
  case cwds =>
    intro q other member
    have cwds := tables.cwds q other (List.mem_cons_of_mem _ member)
    have missing := absent other
    grind
  case cwdHeld =>
    intro q ip current
    have cwdHeld := tables.cwdHeld q ip
    grind
  case files =>
    intro g other member
    exact tables.files g other (List.mem_cons_of_mem _ member)
  case fileHeld =>
    intro g opened
    have fileHeld := tables.fileHeld g opened
    grind
  case descriptors =>
    intro q gd g
    have descriptors := tables.descriptors q gd g
    grind
  case counted => exact fun g opened => tables.counted_cwd _ opened

/-- A process without a current directory gets one. -/
theorem gets_cwd (tables : Tables file proc held) (hold : Hold)
    (without : (proc p).cwd = none) :
    Tables file
      (Function.update proc p { proc p with cwd := some hold.slot })
      ((.cwd p, hold) :: held) := by
  have absent : ∀ hold, (Holder.cwd p, hold) ∉ held := by
    intro other member
    have current := tables.cwds p other member
    simp [without] at current
  constructor
  case nodup =>
    refine List.nodup_cons.mpr ⟨?_, tables.nodup⟩
    intro member
    rcases List.mem_map.mp member with ⟨⟨holder, other⟩, member, rfl⟩
    exact absent other member
  case cwds =>
    intro q other member
    have cwds := tables.cwds q other
    have missing := absent other
    grind
  case cwdHeld =>
    intro q ip current
    have cwdHeld := tables.cwdHeld q ip
    grind
  case files =>
    intro g other member
    have files := tables.files g other
    grind
  case fileHeld =>
    intro g
    have fileHeld := tables.fileHeld g
    grind
  case descriptors =>
    intro q gd g
    have descriptors := tables.descriptors q gd g
    grind
  case counted => exact fun g opened => tables.counted_cwd _ opened

end Tables

/-! ## The invariant between calls -/

/-- The state between calls: the open files and processes hold the
references. -/
def Ready (k : Kernel) (initial : Nat → BitVec 16) (state : Fs) : Prop :=
  ∃ frame held, frame.initial = initial ∧ frame.Unshaped ∧
    Tables frame.file frame.proc held ∧
      Inv k frame (held.map Prod.snd) state

variable {k : Kernel} {initial : Nat → BitVec 16} {frame : Frame}
  {held : List (Holder × Hold)} {p : Nat}

/-- A state with the invariant is one between calls. -/
theorem Inv.ready {state : Fs} (held : List (Holder × Hold))
    (inv : Inv k frame (held.map Prod.snd) state)
    (start : frame.initial = initial) (unshaped : frame.Unshaped)
    (tables : Tables frame.file frame.proc held) : Ready k initial state :=
  ⟨frame, held, start, unshaped, tables, inv⟩

theorem Tables.cwd_held (tables : Tables frame.file frame.proc held)
    (p : Nat) : CwdHeld frame (held.map Prod.snd) p := by
  intro ip current
  rcases tables.cwdHeld p ip current with ⟨hold, member, slot⟩
  exact ⟨hold, List.mem_map_of_mem member, slot⟩

/-- A call from a state between calls. -/
theorem ready_elim {call : FsM Int} {post : Int → Fs → Prop}
    (each : ∀ frame held, frame.initial = initial → frame.Unshaped →
      Tables frame.file frame.proc held →
        Triple (Inv k frame (held.map Prod.snd)) call post) :
    Triple (Ready k initial) call post := by
  rintro state ⟨frame, held, start, unshaped, tables, inv⟩
  exact each frame held start unshaped tables state inv

/-- A call that leaves the files and the processes alone. -/
theorem ready_of_later {call : FsM Int}
    (spec : ∀ frame held, frame.Unshaped → CwdHeld frame held p →
      Triple (Inv k frame held) call
        (fun _ state => Later k frame held state)) :
    Triple (Ready k initial) call (fun _ state => Ready k initial state) := by
  apply ready_elim
  intro frame held start unshaped tables
  refine (spec frame _ unshaped (tables.cwd_held p)).weaken ?_
  rintro _ state ⟨history, inv⟩
  exact ⟨frame.since history, held, start, fun _ _ _ => unshaped _ _ _,
    tables, inv⟩

/-! ## Changes of the tables -/

/-- The frame with another file table entry. -/
def Frame.withFile (frame : Frame) (f : Nat) (file : File) : Frame :=
  { frame with file := Function.update frame.file f file }

/-- The frame with another descriptor. -/
def Frame.withFd (frame : Frame) (p fd : Nat) (entry : Option Nat) : Frame :=
  { frame with
    proc := Function.update frame.proc p
      { frame.proc p with
        ofile := Function.update (frame.proc p).ofile fd entry } }

/-- The frame with another current directory. -/
def Frame.withCwd (frame : Frame) (p ip : Nat) : Frame :=
  { frame with
    proc := Function.update frame.proc p
      { frame.proc p with cwd := some ip } }

section Changes

variable {holds : List Hold}

theorem setFile_spec (f : Nat) (change : File → File) :
    Triple (Inv k frame holds) (setFile f change)
      (fun _ => Inv k (frame.withFile f (change (frame.file f))) holds) := by
  apply Triple.modify
  rintro state ⟨own, good⟩
  exact ⟨own, { good with
    file := by simp [Frame.withFile, good.file] }⟩

theorem setFd_spec (p fd : Nat) (entry : Option Nat) :
    Triple (Inv k frame holds) (setFd p fd entry)
      (fun _ => Inv k (frame.withFd p fd entry) holds) := by
  apply Triple.modify
  rintro state ⟨own, good⟩
  exact ⟨own, { good with
    proc := by simp [Frame.withFd, good.proc] }⟩

theorem setCwd_spec (p ip : Nat) :
    Triple (Inv k frame holds) (setCwd p ip)
      (fun _ => Inv k (frame.withCwd p ip) holds) := by
  apply Triple.modify
  rintro state ⟨own, good⟩
  exact ⟨own, { good with
    proc := by simp [Frame.withCwd, good.proc] }⟩

theorem fileAt_spec (f : Nat) :
    Triple (Inv k frame holds) (fileAt f)
      (fun file state => Inv k frame holds state ∧ file = frame.file f) := by
  rintro state ⟨own, good⟩ file after ⟨⟩
  exact ⟨⟨own, good⟩, by rw [good.file]⟩

theorem argfd_spec (p : Nat) (fd : Int) :
    Triple (Inv k frame holds) (argfd k p fd)
      (fun result state => Inv k frame holds state ∧
        ∀ f, result = some f → (frame.proc p).ofile fd.toNat = some f) := by
  apply Triple.ite
  · intro _
    exact Triple.pure (fun _ inv => ⟨inv, by simp⟩)
  · intro _
    refine Triple.bind Triple.get (fun state => ?_)
    apply Triple.pure
    rintro current ⟨⟨own, good⟩, rfl⟩
    refine ⟨⟨own, good⟩, fun f entry => ?_⟩
    rw [← good.proc]
    exact entry

end Changes

/-! ## Reading and writing files -/

/-- Only the offsets of files differ. -/
def Moved (frame moved : Frame) : Prop :=
  ∃ file : Nat → File, (∀ f, ∃ off, file f = { frame.file f with off := off }) ∧
    moved = { frame with file := file }

theorem Moved.refl (frame : Frame) : Moved frame frame :=
  ⟨frame.file, fun f => ⟨(frame.file f).off, rfl⟩, rfl⟩

theorem Moved.step {frame moved : Frame} {f : Nat} {off : BitVec 32}
    (rest : Moved (frame.withFile f { frame.file f with off := off }) moved) :
    Moved frame moved := by
  rcases rest with ⟨file, same, rfl⟩
  refine ⟨file, fun g => ?_, rfl⟩
  rcases same g with ⟨other, equal⟩
  by_cases here : g = f
  · subst here
    exact ⟨other, by simpa [Frame.withFile] using equal⟩
  · exact ⟨other, by simpa [Frame.withFile, here] using equal⟩

section Accesses

variable {holds : List Hold} {f inum : Nat} {type : BitVec 16}

/-- What an access to a file leaves. -/
def Accessed (k : Kernel) (frame : Frame) (holds : List Hold) (state : Fs) :
    Prop :=
  ∃ moved, Moved frame moved ∧ Inv k moved holds state

theorem readAccesses_spec (accesses : List Access) (frame : Frame) :
    Triple (Inv k frame (⟨(frame.file f).ip, inum, some type⟩ :: holds))
      (readAccesses k f accesses)
      (fun _ => Accessed k frame
        (⟨(frame.file f).ip, inum, some type⟩ :: holds)) := by
  induction accesses generalizing frame with
  | nil => exact Triple.pure (fun _ inv => ⟨frame, .refl frame, inv⟩)
  | cons access rest induction =>
      refine Triple.bind (fileAt_spec f) (fun file => ?_)
      apply Triple.and_pre
      rintro rfl
      refine Triple.bind ilock_loaded (fun _ => ?_)
      refine Triple.bind
        (readi_spec List.mem_cons_self access.copies access.off access.n)
        (fun _ => ?_)
      refine Triple.bind (setFile_spec f _) (fun _ => ?_)
      refine Triple.bind (iunlock_spec _) (fun _ => ?_)
      have later := induction
        (frame.withFile f { frame.file f with off := access.next })
      simp only [Frame.withFile, Function.update_self] at later
      refine later.weaken ?_
      rintro _ state ⟨moved, step, inv⟩
      exact ⟨moved, Moved.step step, inv⟩

theorem writeAccesses_spec (accesses : List Access) (frame : Frame)
    (unshaped : frame.Unshaped) (file : type ≠ tDir) :
    Triple (Inv k frame (⟨(frame.file f).ip, inum, some type⟩ :: holds))
      (writeAccesses k f accesses)
      (fun _ => Accessed k frame
        (⟨(frame.file f).ip, inum, some type⟩ :: holds)) := by
  induction accesses generalizing frame with
  | nil => exact Triple.pure (fun _ inv => ⟨frame, .refl frame, inv⟩)
  | cons access rest induction =>
      refine Triple.bind (fileAt_spec f) (fun file => ?_)
      apply Triple.and_pre
      rintro rfl
      refine Triple.bind beginOp_spec (fun _ => ?_)
      refine Triple.bind ilock_loaded (fun _ => ?_)
      refine Triple.bind
        (writei_spec List.mem_cons_self unshaped access.copies access.source
          access.off access.n (fun directory => absurd directory file))
        (fun _ => ?_)
      refine Triple.bind (setFile_spec f _) (fun _ => ?_)
      refine Triple.bind (iunlock_spec _) (fun _ => ?_)
      refine Triple.bind endOp_spec (fun _ => ?_)
      have later := induction
        (frame.withFile f { frame.file f with off := access.next })
        (fun _ _ _ => unshaped _ _ _)
      simp only [Frame.withFile, Function.update_self] at later
      refine later.weaken ?_
      rintro _ state ⟨moved, step, inv⟩
      exact ⟨moved, Moved.step step, inv⟩

end Accesses

/-- A reference that is held can be listed first. -/
theorem exists_perm {entry : Holder × Hold} (member : entry ∈ held) :
    ∃ rest, held.Perm (entry :: rest) := by
  rcases List.append_of_mem member with ⟨front, back, rfl⟩
  exact ⟨front ++ back, List.perm_middle⟩

theorem Inv.perm {first second : List Hold} {state : Fs}
    (inv : Inv k frame first state) (same : first.Perm second) :
    Inv k frame second state := by
  rcases inv with ⟨own, good⟩
  exact ⟨own, good.perm same⟩

/-- The reference of an open descriptor, listed first. -/
theorem Tables.of_descriptor (tables : Tables frame.file frame.proc held)
    {fd f : Nat} (entry : (frame.proc p).ofile fd = some f) :
    ∃ inum type rest,
      Tables frame.file frame.proc
        ((.file f, ⟨(frame.file f).ip, inum, some type⟩) :: rest) ∧
      held.Perm ((.file f, ⟨(frame.file f).ip, inum, some type⟩) :: rest) ∧
      ((frame.file f).writable = true → type ≠ tDir) := by
  rcases tables.fileHeld f (tables.descriptors p fd f entry) with
    ⟨⟨slot, inum, loaded⟩, member⟩
  have known := tables.files f _ member
  rcases known.loaded with ⟨type, rfl, writable⟩
  have ip : (frame.file f).ip = slot := known.ip
  subst ip
  rcases exists_perm member with ⟨rest, same⟩
  exact ⟨inum, type, rest, tables.perm same, same, writable⟩

/-- What the accesses to a file leave is a state between calls. -/
theorem Accessed.ready {state : Fs} (start : frame.initial = initial)
    (unshaped : frame.Unshaped)
    (tables : Tables frame.file frame.proc held)
    (accessed : Accessed k frame (held.map Prod.snd) state) :
    Ready k initial state := by
  rcases accessed with ⟨moved, ⟨file, same, rfl⟩, inv⟩
  exact ⟨{ frame with file := file }, held, start,
    fun _ _ _ => unshaped _ _ _, tables.congr same, inv⟩

/-- A call on a descriptor. -/
theorem descriptor_ready (fd : Int) {body : Nat → FsM Int}
    (each : ∀ (frame : Frame) f inum type rest, frame.initial = initial →
      frame.Unshaped →
      Tables frame.file frame.proc
        ((.file f, ⟨(frame.file f).ip, inum, some type⟩) :: rest) →
      ((frame.file f).writable = true → type ≠ tDir) →
      (frame.proc p).ofile fd.toNat = some f →
        Triple
          (Inv k frame
            (⟨(frame.file f).ip, inum, some type⟩ :: rest.map Prod.snd))
          (body f) (fun _ state => Ready k initial state)) :
    Triple (Ready k initial)
      (do
        match ← argfd k p fd with
        | none => return -1
        | some f => body f)
      (fun _ state => Ready k initial state) := by
  apply ready_elim
  intro frame held start unshaped tables
  refine Triple.bind (argfd_spec p fd) (fun result => ?_)
  cases result with
  | none =>
      exact Triple.pure
        (fun _ holds => ⟨frame, held, start, unshaped, tables, holds.1⟩)
  | some f =>
      apply Triple.and_pre
      intro entry
      rcases tables.of_descriptor (entry f rfl) with
        ⟨inum, type, rest, tables, same, notDirectory⟩
      exact (each frame f inum type rest start unshaped tables notDirectory
        (entry f rfl)).strengthen
          (fun _ inv => Inv.perm inv (same.map Prod.snd))

theorem sysRead_ready (fd : Int) (transfer : Transfer) :
    Triple (Ready k initial) (sysRead k p fd transfer)
      (fun _ state => Ready k initial state) := by
  apply descriptor_ready
  intro frame f inum type rest start unshaped tables _ _
  refine Triple.bind (fileAt_spec f) (fun file => ?_)
  refine Triple.strengthen ?_ (fun _ => And.left)
  apply Triple.ite
  · intro _
    refine Triple.bind (readAccesses_spec transfer.accesses frame)
      (fun _ => ?_)
    exact Triple.pure
      (fun _ accessed => Accessed.ready start unshaped tables accessed)
  · intro _
    exact Triple.pure (fun _ inv => ⟨frame, _, start, unshaped, tables, inv⟩)

theorem sysWrite_ready (fd : Int) (transfer : Transfer) :
    Triple (Ready k initial) (sysWrite k p fd transfer)
      (fun _ state => Ready k initial state) := by
  apply descriptor_ready
  intro frame f inum type rest start unshaped tables notDirectory _
  refine Triple.bind (fileAt_spec f) (fun file => ?_)
  apply Triple.and_pre
  rintro rfl
  apply Triple.ite
  · rintro ⟨writable, _⟩
    refine Triple.bind
      (writeAccesses_spec transfer.accesses frame unshaped
        (notDirectory writable)) (fun _ => ?_)
    exact Triple.pure
      (fun _ accessed => Accessed.ready start unshaped tables accessed)
  · intro _
    exact Triple.pure (fun _ inv => ⟨frame, _, start, unshaped, tables, inv⟩)

/-! ## Closing and opening -/

theorem filedup_spec {holds : List Hold} (f : Nat) :
    Triple (Inv k frame holds) (filedup f)
      (fun _ => Inv k
        (frame.withFile f
          { frame.file f with ref := (frame.file f).ref + 1 }) holds) := by
  refine Triple.bind (fileAt_spec f) (fun file => ?_)
  apply Triple.and_pre
  rintro rfl
  apply Triple.ite
  · exact fun _ => Triple.throw
  · exact fun _ => setFile_spec f _

/-- `fileclose` of a file that has other descriptors. -/
theorem fileclose_shared {holds : List Hold} {f : Nat}
    (shared : 1 < (frame.file f).ref) :
    Triple (Inv k frame holds) (fileclose k f)
      (fun _ => Inv k
        (frame.withFile f
          { frame.file f with ref := (frame.file f).ref - 1 }) holds) := by
  refine Triple.bind (fileAt_spec f) (fun file => ?_)
  apply Triple.and_pre
  rintro rfl
  rw [if_neg (by omega), if_pos shared]
  exact setFile_spec f _

/-- `fileclose` of the last descriptor of a file. -/
theorem fileclose_last {holds : List Hold} {f inum : Nat} {type : BitVec 16}
    (unshaped : frame.Unshaped) (one : (frame.file f).ref = 1)
    (opened : (frame.file f).type ≠ .none) :
    Triple
      (Inv k frame (⟨(frame.file f).ip, inum, some type⟩ :: holds))
      (fileclose k f)
      (fun _ => Inv k
        (frame.withFile f { frame.file f with ref := 0, type := .none })
        holds) := by
  refine Triple.bind (fileAt_spec f) (fun file => ?_)
  apply Triple.and_pre
  rintro rfl
  rw [if_neg (by omega), if_neg (by omega)]
  refine Triple.bind (setFile_spec f _) (fun _ => ?_)
  rw [if_neg opened]
  refine Triple.bind beginOp_spec (fun _ => ?_)
  refine Triple.bind
    (iput_spec ⟨(frame.file f).ip, inum, some type⟩
      (fun _ _ _ _ => unshaped _ _ _)) (fun _ => ?_)
  exact endOp_spec

theorem sysClose_ready (fd : Int) :
    Triple (Ready k initial) (sysClose k p fd)
      (fun _ state => Ready k initial state) := by
  apply descriptor_ready
  intro frame f inum type rest start unshaped tables _ entry
  have known := tables.files f _ List.mem_cons_self
  refine Triple.bind (setFd_spec p fd.toNat none) (fun _ => ?_)
  rcases Nat.lt_or_ge 1 (frame.file f).ref with shared | last
  · refine Triple.bind (fileclose_shared shared) (fun _ => ?_)
    apply Triple.pure
    intro state inv
    refine Inv.ready
      ((.file f, ⟨(frame.file f).ip, inum, some type⟩) :: rest) inv start
      (fun _ _ _ => unshaped _ _ _) ?_
    exact tables.shares shared entry
  · have one : (frame.file f).ref = 1 := Nat.le_antisymm last known.ref
    refine Triple.bind
      (fileclose_last (fun _ _ _ => unshaped _ _ _) one known.opened)
      (fun _ => ?_)
    apply Triple.pure
    intro state inv
    refine Inv.ready rest inv start (fun _ _ _ => unshaped _ _ _) ?_
    exact tables.closes rfl one entry

theorem filealloc_run (k : Kernel) (state : Fs) :
    filealloc k state =
      match k.filealloc state.file with
      | none => .ok (none, state)
      | some f =>
          (setFile f (fun file => { file with ref := 1 }) >>= fun _ =>
            pure (some f) : FsM (Option Nat)) state := by
  show (match k.filealloc state.file with
    | none => _
    | some f => _ : FsM (Option Nat)) state = _
  cases k.filealloc state.file <;> rfl

/-- The result of `filealloc`: nothing, or an entry that was free. -/
def FileAllocated (k : Kernel) (frame : Frame) (holds : List Hold) :
    Option Nat → Fs → Prop
  | none, state => Inv k frame holds state
  | some f, state =>
      Inv k (frame.withFile f { frame.file f with ref := 1 }) holds state ∧
        (frame.file f).ref = 0

theorem filealloc_spec {holds : List Hold} :
    Triple (Inv k frame holds) (filealloc k)
      (FileAllocated k frame holds) := by
  rintro state inv result after run
  rw [filealloc_run] at run
  split at run
  · cases run
    exact inv
  · next f found =>
    rcases bind_eq_ok.mp run with ⟨_, between, set, ⟨⟩⟩
    refine ⟨setFile_spec f _ state inv _ _ set, ?_⟩
    rcases inv with ⟨own, good⟩
    rw [← good.file]
    exact k.filealloc_free _ _ found

theorem fdalloc_run (k : Kernel) (p f : Nat) (state : Fs) :
    fdalloc k p f state =
      match (List.range k.nofile).find? fun fd =>
          ((state.proc p).ofile fd).isNone with
      | none => .ok (none, state)
      | some fd =>
          (setFd p fd (some f) >>= fun _ =>
            pure (some fd) : FsM (Option Nat)) state := by
  show (match (List.range k.nofile).find? fun fd =>
      ((state.proc p).ofile fd).isNone with
    | none => _
    | some fd => _ : FsM (Option Nat)) state = _
  cases (List.range k.nofile).find? fun fd =>
    ((state.proc p).ofile fd).isNone <;> rfl

/-- The result of `fdalloc`: nothing, or a new descriptor. -/
def FdAllocated (k : Kernel) (frame : Frame) (holds : List Hold) (p f : Nat) :
    Option Nat → Fs → Prop
  | none, state => Inv k frame holds state
  | some fd, state => Inv k (frame.withFd p fd (some f)) holds state ∧
      (frame.proc p).ofile fd = none

theorem fdalloc_spec {holds : List Hold} (p f : Nat) :
    Triple (Inv k frame holds) (fdalloc k p f)
      (FdAllocated k frame holds p f) := by
  rintro state inv result after run
  rw [fdalloc_run] at run
  split at run
  · cases run
    exact inv
  · next fd found =>
    rcases bind_eq_ok.mp run with ⟨_, between, set, ⟨⟩⟩
    refine ⟨setFd_spec p _ (some f) state inv _ _ set, ?_⟩
    rcases inv with ⟨own, good⟩
    rw [← good.proc]
    simpa using List.find?_some found

theorem sysDup_ready (fd : Int) :
    Triple (Ready k initial) (sysDup k p fd)
      (fun _ state => Ready k initial state) := by
  apply descriptor_ready
  intro frame f inum type rest start unshaped tables _ _
  have known := tables.files f _ List.mem_cons_self
  refine Triple.bind (fdalloc_spec p f) (fun result => ?_)
  let hold : Hold := ⟨(frame.file f).ip, inum, some type⟩
  let held := (.file f, hold) :: rest
  cases result with
  | none =>
      apply Triple.pure
      intro state inv
      exact Inv.ready held inv start unshaped tables
  | some copy =>
      apply Triple.and_pre
      intro vacant
      refine Triple.bind (filedup_spec f) (fun _ => ?_)
      apply Triple.pure
      intro state inv
      refine Inv.ready held inv start (fun _ _ _ => unshaped _ _ _) ?_
      exact tables.dups known.opened vacant

section Opening

variable {holds : List Hold} {ip inum f : Nat} {kind : BitVec 16}
  {omode : BitVec 32}

theorem openBad_spec (frees : frame.AllowsFree) (hold : Hold) :
    Triple (Inv k frame (hold :: holds)) (openBad k hold.slot)
      (fun _ state => Inv k frame holds state) := by
  refine Triple.bind (iunlockput_spec hold frees) (fun _ => ?_)
  exact endOp_return _ (fun _ inv => inv)

theorem openTrunc_spec (unshaped : frame.Unshaped)
    (member : ⟨ip, inum, some kind⟩ ∈ holds) :
    Triple (Inv k frame holds) (openTrunc k ip omode)
      (fun _ state => Inv k frame holds state) := by
  refine Triple.bind (inodeAt_spec ip) (fun inode => ?_)
  refine Triple.strengthen ?_ (fun _ => And.left)
  apply Triple.ite
  · intro _
    exact (itrunc_spec member (unshaped _ _ _)).weaken
      (fun _ _ => Inv.of_owners)
  · intro _
    exact Triple.pure (fun _ inv => inv)

/-- A mode that only reads makes no writable file. -/
theorem openedFile_writable {inode : Inode} {file : File}
    (readOnly : omode = oRdonly) :
    (openedFile inode ip omode file).writable = false := by
  subst readOnly
  rfl

theorem openedFile_ref {inode : Inode} {file : File} :
    (openedFile inode ip omode file).ref = file.ref := by
  unfold openedFile
  split <;> rfl

theorem openedFile_hold {inode : Inode} {file : File} (one : file.ref = 1)
    (directory : kind = tDir → omode = oRdonly) :
    FileHold (openedFile inode ip omode file) ⟨ip, inum, some kind⟩ := by
  constructor
  case opened =>
    unfold openedFile
    split <;> simp
  case ref =>
    rw [openedFile_ref, one]
    exact Nat.one_pos
  case ip => rfl
  case loaded =>
    refine ⟨kind, rfl, fun writable isDirectory => ?_⟩
    rw [openedFile_writable (directory isDirectory)] at writable
    cases writable

theorem openFile_ready {fd : Nat} (start : frame.initial = initial)
    (unshaped : frame.Unshaped) (tables : Tables frame.file frame.proc held)
    (closed : (frame.file f).type = .none)
    (free : (frame.proc p).ofile fd = none)
    (directory : kind = tDir → omode = oRdonly) :
    Triple
      (Inv k
        ((frame.withFile f { frame.file f with ref := 1 }).withFd p fd
          (some f))
        (⟨ip, inum, some kind⟩ :: held.map Prod.snd))
      (openFile k ip f fd omode)
      (fun _ state => Ready k initial state) := by
  refine Triple.bind (inodeAt_spec ip) (fun inode => ?_)
  refine Triple.strengthen ?_ (fun _ => And.left)
  refine Triple.bind (setFile_spec f _) (fun _ => ?_)
  refine Triple.bind
    (openTrunc_spec (fun _ _ _ => unshaped _ _ _) List.mem_cons_self)
    (fun _ => ?_)
  refine Triple.bind (iunlock_spec ip) (fun _ => ?_)
  refine endOp_return _ (fun state inv => ?_)
  refine Inv.ready ((.file f, ⟨ip, inum, some kind⟩) :: held) inv start
    (fun _ _ _ => unshaped _ _ _) ?_
  have known :
      FileHold
        (openedFile inode ip omode { frame.file f with ref := 1 })
        ⟨ip, inum, some kind⟩ :=
    openedFile_hold rfl directory
  simpa [Frame.withFile, Frame.withFd] using
    tables.opens closed known openedFile_ref free

/-- The result of the lookup of `sys_open`. -/
def Opened (k : Kernel) (frame : Frame) (holds : List Hold)
    (omode : BitVec 32) : Option Nat → Fs → Prop
  | none, state => Later k frame holds state
  | some ip, state => ∃ inum kind history,
      Inv k (frame.since history) (⟨ip, inum, some kind⟩ :: holds) state ∧
        (kind = tDir → omode = oRdonly)

theorem openInode_spec (unshaped : frame.Unshaped)
    (cwd : CwdHeld frame holds p) (path : Path) (omode : BitVec 32) :
    Triple (Inv k frame holds) (openInode k p path omode)
      (Opened k frame holds omode) := by
  have frees := unshaped.allowsFree
  apply Triple.ite
  · intro _
    refine (create_spec unshaped cwd path tFile 0 0).weaken ?_
    intro result state created
    cases result with
    | none => exact created
    | some ip =>
        rcases created with ⟨inum, kind, history, inv, file⟩
        exact ⟨inum, kind, history, inv,
          fun directory => absurd directory (file rfl)⟩
  · intro _
    refine Triple.bind (namei_spec frees cwd path) (fun result => ?_)
    cases result with
    | none => exact Triple.pure (fun _ => Inv.later)
    | some ip =>
        apply Triple.exists_pre
        intro inum
        apply Triple.exists_pre
        intro loaded
        refine Triple.bind ilock_exists (fun _ => ?_)
        apply Triple.exists_pre
        intro kind
        refine Triple.bind (inodeAt_held List.mem_cons_self)
          (fun inode => ?_)
        apply Triple.and_pre
        rintro ⟨_, rfl, _⟩
        apply Triple.ite
        · intro _
          refine Triple.bind (iunlockput_spec ⟨ip, inum, _⟩ frees)
            (fun _ => ?_)
          exact Triple.pure (fun _ => Inv.later)
        · intro allowed
          apply Triple.pure
          intro state inv
          refine ⟨inum, _, frame.history, inv, fun directory => ?_⟩
          by_contra other
          exact allowed ⟨directory, other⟩

theorem openChecked_ready (start : frame.initial = initial)
    (unshaped : frame.Unshaped) (tables : Tables frame.file frame.proc held)
    (directory : kind = tDir → omode = oRdonly) :
    Triple (Inv k frame (⟨ip, inum, some kind⟩ :: held.map Prod.snd))
      (openChecked k p ip omode)
      (fun _ state => Ready k initial state) := by
  have frees := unshaped.allowsFree
  have bad :
      Triple (Inv k frame (⟨ip, inum, some kind⟩ :: held.map Prod.snd))
        (openBad k ip) (fun _ state => Ready k initial state) :=
    (openBad_spec frees ⟨ip, inum, some kind⟩).weaken
      (fun _ _ inv => Inv.ready held inv start unshaped tables)
  refine Triple.bind (inodeAt_spec ip) (fun inode => ?_)
  refine Triple.strengthen ?_ (fun _ => And.left)
  apply Triple.ite
  · exact fun _ => bad
  · intro _
    apply Triple.ite
    · exact fun _ => bad
    · intro _
      refine Triple.bind filealloc_spec (fun result => ?_)
      cases result with
      | none => exact bad
      | some f =>
          apply Triple.and_pre
          intro free
          have closed := tables.closed_of_free free
          refine Triple.bind (fdalloc_spec p f) (fun result => ?_)
          cases result with
          | none =>
              have given :
                  Triple
                    (Inv k (frame.withFile f { frame.file f with ref := 1 })
                      (⟨ip, inum, some kind⟩ :: held.map Prod.snd))
                    (fileclose k f)
                    (fun _ => Inv k frame
                      (⟨ip, inum, some kind⟩ :: held.map Prod.snd)) := by
                refine Triple.bind (fileAt_spec f) (fun file => ?_)
                apply Triple.and_pre
                rintro rfl
                have one : ((frame.withFile f
                    { frame.file f with ref := 1 }).file f).ref = 1 := by
                  simp [Frame.withFile]
                have unopened : ((frame.withFile f
                    { frame.file f with ref := 1 }).file f).type =
                      .none := by
                  simpa [Frame.withFile] using closed
                have same : { frame.file f with ref := 0, type := .none } =
                    frame.file f := by
                  rw [← free, ← closed]
                rw [if_neg (by omega), if_neg (by omega)]
                refine Triple.bind (setFile_spec f _) (fun _ => ?_)
                rw [if_pos unopened]
                apply Triple.pure
                intro state inv
                simpa [Frame.withFile, same] using inv
              exact Triple.bind given (fun _ => bad)
          | some fd =>
              apply Triple.and_pre
              intro vacant
              exact openFile_ready start unshaped tables closed vacant
                directory

theorem sysOpen_ready (path : Option Path) (omode : BitVec 32) :
    Triple (Ready k initial) (sysOpen k p path omode)
      (fun _ state => Ready k initial state) := by
  apply ready_elim
  intro frame held start unshaped tables
  cases path with
  | none =>
      exact Triple.pure
        (fun _ inv => Inv.ready held inv start unshaped tables)
  | some path =>
      refine Triple.bind beginOp_spec (fun _ => ?_)
      refine Triple.bind
        (openInode_spec unshaped (tables.cwd_held p) path omode)
        (fun result => ?_)
      cases result with
      | none =>
          apply Triple.exists_pre
          intro history
          exact endOp_return _ (fun _ inv =>
            Inv.ready held inv start (fun _ _ _ => unshaped _ _ _) tables)
      | some ip =>
          apply Triple.exists_pre
          intro inum
          apply Triple.exists_pre
          intro kind
          apply Triple.exists_pre
          intro history
          apply Triple.and_pre
          intro directory
          have later : (frame.since history).initial = initial := start
          exact openChecked_ready later (fun _ _ _ => unshaped _ _ _) tables
            directory

end Opening

/-! ## Current directories -/

theorem sysChdir_ready (path : Option Path) :
    Triple (Ready k initial) (sysChdir k p path)
      (fun _ state => Ready k initial state) := by
  apply ready_elim
  intro frame held start unshaped tables
  have frees := unshaped.allowsFree
  have ready : ∀ state, Inv k frame (held.map Prod.snd) state →
      Ready k initial state :=
    fun _ inv => Inv.ready held inv start unshaped tables
  refine Triple.bind beginOp_spec (fun _ => ?_)
  cases path with
  | none => exact endOp_return _ ready
  | some path =>
      refine Triple.bind (namei_spec frees (tables.cwd_held p) path)
        (fun result => ?_)
      cases result with
      | none => exact endOp_return _ ready
      | some ip =>
          apply Triple.exists_pre
          intro inum
          apply Triple.exists_pre
          intro loaded
          refine Triple.bind ilock_exists (fun _ => ?_)
          apply Triple.exists_pre
          intro kind
          refine Triple.bind (inodeAt_spec ip) (fun inode => ?_)
          refine Triple.strengthen ?_ (fun _ => And.left)
          apply Triple.ite
          · intro _
            refine Triple.bind (iunlockput_spec ⟨ip, inum, some kind⟩ frees)
              (fun _ => ?_)
            exact endOp_return _ ready
          · intro _
            refine Triple.bind (iunlock_spec ip) (fun _ => ?_)
            refine Triple.bind Triple.get (fun state => ?_)
            cases current : (state.proc p).cwd with
            | none => exact Triple.throw
            | some cwd =>
                apply Triple.at_state
                rintro before ⟨inv, rfl⟩
                have procs : state.proc = frame.proc := by
                  rcases inv with ⟨own, good⟩
                  exact good.proc
                rcases tables.cwdHeld p cwd (procs ▸ current) with
                  ⟨hold, member, rfl⟩
                rcases exists_perm member with ⟨rest, same⟩
                have tables := tables.perm same
                have order :
                    ((⟨ip, inum, some kind⟩ : Hold) ::
                      held.map Prod.snd).Perm
                      (hold :: ⟨ip, inum, some kind⟩ ::
                        rest.map Prod.snd) :=
                  ((same.map Prod.snd).cons _).trans (List.Perm.swap _ _ _)
                have moved :
                    Triple (fun current => current = state)
                      (iput k hold.slot)
                      (fun _ => Inv k frame
                        (⟨ip, inum, some kind⟩ :: rest.map Prod.snd)) := by
                  refine (iput_spec hold frees).strengthen ?_
                  rintro _ rfl
                  exact inv.perm order
                refine Triple.bind moved (fun _ => ?_)
                refine Triple.bind endOp_spec (fun _ => ?_)
                refine Triple.bind (setCwd_spec p ip) (fun _ => ?_)
                apply Triple.pure
                intro state inv
                refine Inv.ready ((.cwd p, ⟨ip, inum, some kind⟩) :: rest)
                  inv start (fun _ _ _ => unshaped _ _ _) ?_
                have changed := tables.drops_cwd.gets_cwd (p := p)
                  ⟨ip, inum, some kind⟩ (by simp)
                simpa [Frame.withCwd] using changed

theorem userinit_ready :
    Triple (Ready k initial) (userinit k p)
      (fun _ state => Ready k initial state) := by
  apply ready_elim
  intro frame held start unshaped tables
  refine Triple.bind Triple.get (fun state => ?_)
  cases current : (state.proc p).cwd with
  | some _ =>
      apply Triple.pure
      rintro _ ⟨inv, _⟩
      exact Inv.ready held inv start unshaped tables
  | none =>
      apply Triple.at_state
      rintro before ⟨inv, rfl⟩
      have procs : state.proc = frame.proc := by
        rcases inv with ⟨own, good⟩
        exact good.proc
      have resolved :
          Triple (fun current => current = state) (namei k p [slash])
            (Resolved k frame (held.map Prod.snd)) := by
        refine (namei_spec unshaped.allowsFree (tables.cwd_held p)
          [slash]).strengthen ?_
        rintro _ rfl
        exact inv
      refine Triple.bind resolved (fun result => ?_)
      cases result with
      | none =>
          apply Triple.pure
          intro _ inv
          exact Inv.ready held inv start unshaped tables
      | some ip =>
          apply Triple.exists_pre
          intro inum
          apply Triple.exists_pre
          intro loaded
          refine Triple.bind (setCwd_spec p ip) (fun _ => ?_)
          apply Triple.pure
          intro _ inv
          refine Inv.ready ((.cwd p, ⟨ip, inum, loaded⟩) :: held) inv start
            (fun _ _ _ => unshaped _ _ _) ?_
          exact tables.gets_cwd ⟨ip, inum, loaded⟩ (procs ▸ current)

/-! ## Every call -/

/-- Every call keeps the invariant between calls. -/
theorem runCall_ready (call : Call) :
    Triple (Ready k initial) (runCall k p call)
      (fun _ state => Ready k initial state) := by
  cases call with
  | start => exact userinit_ready
  | «open» path omode => exact sysOpen_ready path omode
  | dup fd => exact sysDup_ready fd
  | read fd transfer => exact sysRead_ready fd transfer
  | write fd transfer => exact sysWrite_ready fd transfer
  | close fd => exact sysClose_ready fd
  | link old new =>
      exact ready_of_later fun frame held unshaped cwd =>
        (sysLink_spec unshaped cwd old new).weaken fun _ _ => Inv.later
  | unlink path =>
      exact ready_of_later fun frame held unshaped cwd =>
        (sysUnlink_spec unshaped cwd path).weaken fun _ _ => Inv.later
  | mkdir path =>
      exact ready_of_later fun frame held unshaped cwd =>
        makeNode_spec unshaped cwd path tDir 0 0
  | mknod path major minor =>
      exact ready_of_later fun frame held unshaped cwd =>
        makeNode_spec unshaped cwd path tDevice _ _
  | chdir path => exact sysChdir_ready path
  | chmod path mode =>
      exact ready_of_later fun frame held unshaped cwd =>
        sysChmod_spec unshaped cwd path mode
  | getperm path =>
      exact ready_of_later fun frame held unshaped cwd =>
        (sysGetperm_spec unshaped.allowsFree cwd path).weaken
          fun _ _ => Inv.later

end OSCourse.FileSystem
