import OSCourse.CopyTree.Frame

/-!
# What a copy contains

`Job.seen` is the tree that is to be copied: with `-l` the nodes below the
source, links included; without it what every path below `src` leads to when
links are followed.  `Job.made` is what stands below `dest` afterwards: the
nodes seen, with the modes that `mkdir`, `open` and `chmod` give them, as far as
the directories above them let the process make something in them.
-/

namespace OSCourse.CopyTree

open OSCourse.Library.FileTree
open OSCourse.Library.PosixFile (overwrite)

variable {job : Job} {source origin place : Place} {files later : Files}
variable {names : List Name} {name : Name} {todo : List Text}

/-- What is to be copied at a path below the source. -/
def Job.seen (job : Job) (source : Place) (names : List Name) : Option Node :=
  if job.copySymlinks then job.files.node (source ++ names)
  else
    (stat job.files job.machine.process (descend job.src names)).toOption

/-- Whether the process may list a directory and read a file. -/
def Readable (process : Process) : Node → Prop
  | .dir perm =>
      process.may perm .read = true ∧ process.may perm .search = true
  | .file perm _ => process.may perm .read = true
  | .link _ => True

/-- Everything to be copied is readable. -/
def AllReadable (job : Job) (source : Place) : Prop :=
  ∀ names node, job.seen source names = some node →
    Readable job.machine.process node

/-- The process may make entries in the directory of a place. -/
def Job.Room (job : Job) (origin : Place) : Prop :=
  ∃ perm, job.files.node origin.dropLast = some (.dir perm) ∧
    job.machine.process.may perm .write = true

/-- Every `write` succeeds in full. -/
def Job.Writes (job : Job) : Prop :=
  ∀ dest offset count, job.machine.writeAmount dest offset count = count

/--
Directories with entries and files are readable, the place of `dest` is in a
writable directory, and every `write` succeeds in full.
-/
structure Ready (job : Job) (source origin : Place) : Prop extends
    Placed job source origin where
  listed :
    ∀ names place name perm, Leads job source names place →
      job.files.node place = some (.dir perm) →
        job.files.node (place ++ [name]) ≠ none →
          Readable job.machine.process (.dir perm)
  opened :
    ∀ names perm content,
      job.seen source names = some (.file perm content) →
        Readable job.machine.process (.file perm content)
  room : job.Room origin
  writes : job.Writes

/-- Without `-l` the copier sees what `stat` reports. -/
theorem seen_eq_some
    (flag : job.copySymlinks = false)
    {node : Node} :
    job.seen source names = some node ↔
      stat job.files job.machine.process (descend job.src names) =
        .ok node := by
  unfold Job.seen
  rw [if_neg (by simp [flag])]
  rcases stat job.files job.machine.process (descend job.src names) with
    fault | found <;> simp [Except.toOption]

theorem seen_of_leads
    (placed : Placed job source origin)
    (leads : Leads job source names place) :
    job.seen source names = job.files.node place := by
  cases flag : job.copySymlinks with
  | true => simp [Job.seen, flag, leads.literal flag]
  | false =>
      obtain ⟨perm, found⟩ := placed.leads_directory leads
      rw [found]
      exact (seen_eq_some flag).mpr
        (status_eq_ok.mpr ⟨place, placed.leads_located leads, found⟩)

/-- A tree in which everything is readable is ready to be copied. -/
theorem AllReadable.ready
    (readable : AllReadable job source)
    (placed : Placed job source origin)
    (room : job.Room origin)
    (writes : job.Writes) :
    Ready job source origin :=
  { placed with
    listed := by
      intro names place name perm leads found _
      exact readable names _ ((seen_of_leads placed leads).trans found)
    opened := fun names _ _ visible => readable names _ visible
    room := room
    writes := writes }

namespace Ready

variable (ready : Ready job source origin)

include ready

/-- A directory with an entry is listed. -/
theorem lists
    (leads : Leads job source names place)
    (present : job.files.node (place ++ [name]) ≠ none) :
    job.Lists place := by
  obtain ⟨perm, found⟩ := ready.leads_directory leads
  exact ⟨perm, found, (ready.listed _ _ _ _ leads found present).1⟩

theorem entered
    (leads : Leads job source names place)
    (present : job.files.node (place ++ [name]) ≠ none) :
    enter job.files job.machine.process place = .ok () := by
  obtain ⟨perm, found⟩ := ready.leads_directory leads
  exact enter_eq_ok.mpr
    ⟨perm, found, (ready.listed _ _ _ _ leads found present).2⟩

/-- The paths of the entries of a directory. -/
theorem located_entry
    (leads : Leads job source names place)
    (present : job.files.node (place ++ [name]) ≠ none)
    {follow : Bool}
    (stops : follow = false ∨ Solid job.files (place ++ [name])) :
    locate job.files job.machine.process follow
      (descend job.src (names ++ [name])) = .ok (place ++ [name]) := by
  rw [descend_concat]
  exact locate_entry (ready.leads_located leads)
    (ready.entered leads present) stops

/-- Where there is no entry nothing is seen. -/
theorem seen_absent
    (leads : Leads job source names place)
    (absent : job.files.node (place ++ [name]) = none) :
    job.seen source (names ++ [name]) = none := by
  cases flag : job.copySymlinks with
  | true => simpa [Job.seen, flag, leads.literal flag] using absent
  | false =>
      by_contra visible
      obtain ⟨node, found⟩ := Option.ne_none_iff_exists'.mp visible
      have located := ready.leads_located leads
      rw [seen_eq_some flag, descend_concat] at found
      obtain ⟨above, again, entered⟩ :=
        status_child (ready.descend_nonempty names) found
      obtain rfl : above = place := Except.ok.inj (again.symm.trans located)
      obtain ⟨reached, here, held⟩ := status_eq_ok.mp found
      rw [locate_entry located entered (.inr (by simp [Solid, absent])),
        Except.ok.injEq] at here
      rw [← here, absent] at held
      cases held

/-- An entry that is no link is seen as it is. -/
theorem seen_entry
    (leads : Leads job source names place)
    (solid : job.copySymlinks = true ∨ Solid job.files (place ++ [name])) :
    job.seen source (names ++ [name]) = job.files.node (place ++ [name]) := by
  by_cases absent : job.files.node (place ++ [name]) = none
  · rw [absent, ready.seen_absent leads absent]
  cases flag : job.copySymlinks with
  | true => simp [Job.seen, flag, leads.literal flag]
  | false =>
      have plain : Solid job.files (place ++ [name]) :=
        solid.resolve_left (by simp [flag])
      unfold Job.seen
      simp only [flag, Bool.false_eq_true, if_false, stat, status,
        ready.located_entry leads absent (.inr plain)]
      rcases job.files.node (place ++ [name]) with _ | node <;> rfl

/-- What is seen below a path is seen in a directory. -/
theorem seen_parent
    (visible : job.seen source (names ++ [name]) ≠ none) :
    ∃ perm, job.seen source names = some (.dir perm) := by
  cases flag : job.copySymlinks with
  | true =>
      simp only [Job.seen, flag, if_true, ← List.append_assoc] at visible ⊢
      exact ready.wellFormed.closed _ _ visible
  | false =>
      obtain ⟨node, found⟩ := Option.ne_none_iff_exists'.mp visible
      rw [seen_eq_some flag, descend_concat] at found
      obtain ⟨place, located, entered⟩ :=
        status_child (ready.descend_nonempty names) found
      obtain ⟨perm, there, _⟩ := enter_eq_ok.mp entered
      exact ⟨perm, (seen_eq_some flag).mpr
        (status_eq_ok.mpr ⟨place, located, there⟩)⟩

/-- The copier comes to every directory that is seen. -/
theorem leads_of_seen
    {perm : Perm}
    (visible : job.seen source names = some (.dir perm)) :
    ∃ place, Leads job source names place := by
  induction names using List.reverseRecOn generalizing perm with
  | nil => exact ⟨source, .source⟩
  | append_singleton names name ih =>
      obtain ⟨upper, above⟩ := ready.seen_parent (by rw [visible]; simp)
      obtain ⟨place, leads⟩ := ih above
      rcases node_cases job.files (place ++ [name]) with
        vacant | ⟨text, linked⟩ | ⟨node, found, plain⟩
      · rw [ready.seen_absent leads vacant] at visible
        cases visible
      · have present : job.files.node (place ++ [name]) ≠ none := by
          simp [linked]
        cases flag : job.copySymlinks with
        | true =>
            rw [ready.seen_entry leads (.inl flag), linked] at visible
            cases visible
        | false =>
            obtain ⟨reached, located, there⟩ :=
              status_eq_ok.mp ((seen_eq_some flag).mp visible)
            exact ⟨reached, .link flag leads (ready.lists leads present)
              linked located there⟩
      · have present : job.files.node (place ++ [name]) ≠ none := by
          simp [found]
        have solid : Solid job.files (place ++ [name]) := by
          simpa [Solid, found] using plain
        rw [ready.seen_entry leads (.inr solid)] at visible
        exact ⟨_, .directory leads (ready.lists leads present)
          (ready.entered leads present) visible⟩

end Ready

/-! ## What the copier finds at an entry -/

/-- What the copier finds at the path of an entry, by what it is to copy. -/
inductive Finds
    (job : Job)
    (origin : Place)
    (files : Files)
    (src : Text) : Option Node → Prop where
  | directory
      {perm : Perm}
      {entry : Node}
      (lstats : lstat files job.machine.process src = .ok entry)
      (directory :
        isDir job.machine job.copySymlinks src entry files = true) :
      Finds job origin files src (some (.dir perm))
  | file
      {perm : Perm}
      {content : List UInt8}
      {entry : Node}
      {reached : Place}
      (lstats : lstat files job.machine.process src = .ok entry)
      (plain : isDir job.machine job.copySymlinks src entry files = false)
      (followed : (isLink entry && job.copySymlinks) = false)
      (opens : openRead files job.machine.process src = .ok reached)
      (found : files.node reached = some (.file perm content))
      (outside : ¬ origin <+: reached) :
      Finds job origin files src (some (.file perm content))
  | link
      {text : Text}
      {entry : Node}
      (lstats : lstat files job.machine.process src = .ok entry)
      (plain : isDir job.machine job.copySymlinks src entry files = false)
      (kept : (isLink entry && job.copySymlinks) = true)
      (reads :
        readlink files job.machine.process (pathMax - 1) src = .ok text)
      (nonempty : text ≠ []) :
      Finds job origin files src (some (.link text))
  | dangling
      {entry : Node}
      {fault : Fault}
      (lstats : lstat files job.machine.process src = .ok entry)
      (plain : isDir job.machine job.copySymlinks src entry files = false)
      (followed : (isLink entry && job.copySymlinks) = false)
      (fails : openRead files job.machine.process src = .error fault) :
      Finds job origin files src none

section Finds

variable (ready : Ready job source origin)
variable (under : Under job origin later)

include ready under

/-- A file that a path leads to can be opened while the copy is under way. -/
theorem opens_later
    {src : Text}
    {reached : Place}
    {perm : Perm}
    {content : List UInt8}
    (located : locate job.files job.machine.process true src = .ok reached)
    (found : job.files.node reached = some (.file perm content))
    (allowed : job.machine.process.may perm .read = true) :
    openRead later job.machine.process src = .ok reached ∧
      later.node reached = some (.file perm content) ∧
      ¬ origin <+: reached := by
  obtain ⟨again, there, outside⟩ := located_later ready.absent under.same
    ready.home_not_below located found
  exact ⟨openRead_file again there allowed, there, outside⟩

/-- What the copier finds at a link that it follows. -/
theorem finds_followed
    (apart : Apart job source origin)
    (flag : job.copySymlinks = false)
    (leads : Leads job source names place)
    (present : job.files.node (place ++ [name]) ≠ none)
    {text : Text}
    (lstats : lstat later job.machine.process
      (descend job.src (names ++ [name])) = .ok (.link text)) :
    Finds job origin later (descend job.src (names ++ [name]))
      (job.seen source (names ++ [name])) := by
  rcases before : stat job.files job.machine.process
      (descend job.src (names ++ [name])) with fault | target
  · have still : stat later job.machine.process
        (descend job.src (names ++ [name])) = .error fault := by
      refine status_fails_later ready.absent under.same
        ready.home_not_below before ?_
      rintro rfl
      exact apart.unlinked flag _ _ _ leads (ready.lists leads present)
        present before
    obtain ⟨refusal, fails⟩ := openRead_fails still
    have unseen : job.seen source (names ++ [name]) = none := by
      simp only [Job.seen, flag, before, Except.toOption,
        Bool.false_eq_true, if_false]
    rw [unseen]
    exact .dangling lstats
      (by simp only [isDir, isDirectory, isLink, still]; simp)
      (by simp [flag]) fails
  · rw [(seen_eq_some flag).mpr before]
    obtain ⟨reached, followed, found⟩ := status_eq_ok.mp before
    obtain ⟨again, same, outside⟩ := located_later ready.absent
      under.same ready.home_not_below followed found
    have still : stat later job.machine.process
        (descend job.src (names ++ [name])) = .ok target :=
      status_eq_ok.mpr ⟨reached, again, same⟩
    cases target with
    | dir perm =>
        exact .directory lstats
          (by simp only [isDir, isDirectory, isLink, still, flag]; rfl)
    | file perm content =>
        obtain ⟨opens, _, _⟩ := opens_later ready under followed found
          (ready.opened _ _ _ ((seen_eq_some flag).mpr before))
        exact .file lstats
          (by simp only [isDir, isDirectory, isLink, still]; simp)
          (by simp [flag]) opens same outside
    | link text =>
        obtain ⟨rootPerm, root⟩ := ready.wellFormed.root
        obtain ⟨homePerm, home⟩ := ready.home
        exact absurd found (locate_solid ready.wellFormed.closed
          (by simp [Solid, root]) (by simp [Solid, home]) followed text)

theorem finds_later
    (apart : Apart job source origin)
    (leads : Leads job source names place)
    {node : Node}
    (present : job.files.node (place ++ [name]) = some node) :
    Finds job origin later (descend job.src (names ++ [name]))
      (job.seen source (names ++ [name])) := by
  have occupied : job.files.node (place ++ [name]) ≠ none := by
    simp [present]
  have entry : locate job.files job.machine.process false
      (descend job.src (names ++ [name])) = .ok (place ++ [name]) :=
    ready.located_entry leads occupied (.inl rfl)
  obtain ⟨located, there, _⟩ := located_later ready.absent under.same
    ready.home_not_below entry present
  have lstats : lstat later job.machine.process
      (descend job.src (names ++ [name])) = .ok node :=
    status_eq_ok.mpr ⟨_, located, there⟩
  cases node with
  | dir perm =>
      rw [ready.seen_entry leads (.inr (by simp [Solid, present])), present]
      exact .directory lstats (by simp [isDir, isDirectory])
  | file perm content =>
      have solid : Solid job.files (place ++ [name]) := by
        simp [Solid, present]
      have visible := (ready.seen_entry leads (.inr solid)).trans present
      obtain ⟨opens, found, outside⟩ := opens_later ready under
        (ready.located_entry leads occupied (.inr solid)) present
        (ready.opened _ _ _ visible)
      rw [visible]
      exact .file lstats (by simp [isDir, isDirectory, isLink])
        (by simp [isLink]) opens found outside
  | link text =>
      obtain ⟨nonempty, short⟩ := ready.wellFormed.targets _ _ present
      cases flag : job.copySymlinks with
      | true =>
          rw [ready.seen_entry leads (.inl flag), present]
          refine .link lstats (by simp [isDir, isDirectory, flag])
            (by simp [isLink, flag]) ?_ nonempty
          have whole : text.take (pathMax - 1) = text :=
            List.take_of_length_le (by omega)
          simp only [readlink, located, there, whole]
      | false =>
          exact finds_followed ready under apart flag leads occupied lstats

end Finds

/-! ## The copy of one entry -/

/-- The copy of a node. -/
def Job.goal (job : Job) : Node → Node
  | .dir perm =>
      .dir (job.machine.process.masked
        (if job.copyPermissions then perm.mode else 0o755#9))
  | .file perm content =>
      .file
        (if job.copyPermissions then { mode := perm.mode, cls := .owner }
          else job.machine.process.masked 0o644#9)
        content
  | .link text => .link text

/-- The process may make entries in a directory. -/
def Roomy (process : Process) : Option Node → Prop
  | some (.dir perm) =>
      process.may perm .write = true ∧ process.may perm .search = true
  | _ => False

instance (process : Process) (node : Option Node) :
    Decidable (Roomy process node) :=
  match node with
  | some (.dir _) => inferInstanceAs (Decidable (_ ∧ _))
  | some (.file _ _) => inferInstanceAs (Decidable False)
  | some (.link _) => inferInstanceAs (Decidable False)
  | none => inferInstanceAs (Decidable False)

/-- The loop of `copy_file` moves all bytes, however short the reads are. -/
theorem transfer_all
    {machine : Machine}
    (writes : ∀ dest offset count,
      machine.writeAmount dest offset count = count)
    (src dest : Text)
    {reading target : Place}
    (apart : reading ≠ target)
    {perm kept : Perm}
    {done left : List UInt8}
    {turns : Nat}
    (enough : left.length < turns)
    {files : Files}
    (reads : files.node reading = some (.file perm (done ++ left)))
    (written : files.node target = some (.file kept done)) :
    ∃ after, transfer machine src dest reading target turns done.length
        files = (after, .finished) ∧
      after.node target = some (.file kept (done ++ left)) := by
  induction turns generalizing done left files with
  | zero => omega
  | succ turns ih =>
      have data : readAt files reading done.length
          (max 1 (min bufferSize (machine.readAmount src done.length))) =
          .ok (left.take (max 1 (min bufferSize
            (machine.readAmount src done.length)))) := by
        simp [readAt, reads]
      obtain ⟨count, positive⟩ : ∃ count, max 1 (min bufferSize
          (machine.readAmount src done.length)) = count + 1 :=
        ⟨_, (Nat.succ_pred_eq_of_pos (by omega)).symm⟩
      rw [positive] at data
      rw [transfer]
      cases left with
      | nil =>
          simp only [positive, data, List.take_nil]
          exact ⟨files, rfl, by simpa using written⟩
      | cons byte rest =>
          simp only [positive, data, List.take_succ_cons, writes,
            List.take_length, ne_eq, not_true_eq_false, if_false]
          have stored : writeAt files target done.length
              (byte :: rest.take count) =
              files.put target
                (.file kept (done ++ byte :: rest.take count)) := by
            simp [writeAt, written]
          rw [stored]
          have whole : (done ++ byte :: rest.take count) ++ rest.drop count =
              done ++ byte :: rest := by
            simp
          rw [← whole] at reads ⊢
          have shorter : (rest.drop count).length < turns := by
            simp only [List.length_drop, List.length_cons] at enough ⊢
            omega
          have again := ih shorter
            ((files.node_put_of_ne apart _).trans reads) (files.node_put _ _)
          simpa only [List.length_append] using again

theorem enter_iff
    {perm : Perm}
    (here : files.node place = some (.dir perm))
    (process : Process) :
    enter files process place = .ok () ↔
      process.may perm .search = true := by
  rw [enter_eq_ok]
  constructor
  · rintro ⟨other, found, allowed⟩
    rw [here, Option.some.injEq, Node.dir.injEq] at found
    rwa [found]
  · intro allowed
    exact ⟨perm, here, allowed⟩

namespace Stage

variable (placed : Placed job source origin)
variable (stage : Stage job origin names (name.val :: todo) files)
variable {perm : Perm}
variable (here : files.node (origin ++ names) = some (.dir perm))

include stage here

/-- Where something can be made, an entry can be made. -/
theorem makeEntry_roomy
    (roomy : Roomy job.machine.process (some (.dir perm)))
    (node : Node) :
    makeEntry files job.machine.process
        (locate files job.machine.process false
          (child (descend job.dest names) name)) node =
      .ok (files.put (origin ++ names ++ [name]) node) := by
  refine makeEntry_eq_ok.mpr ⟨_, perm, ?_, stage.free_here, ?_, roomy.1, rfl⟩
  · exact locate_entry stage.located
      ((enter_iff here _).mpr roomy.2) (.inl rfl)
  · simpa using here

theorem openWrite_roomy
    (roomy : Roomy job.machine.process (some (.dir perm)))
    (mode : BitVec 9) :
    openWrite files job.machine.process
        (child (descend job.dest names) name) mode =
      .ok (origin ++ names ++ [name],
        files.put (origin ++ names ++ [name])
          (.file (job.machine.process.masked mode) [])) := by
  refine openWrite_new ?_ stage.free_here (by simpa using here) roomy.1 mode
  exact locate_entry stage.located ((enter_iff here _).mpr roomy.2)
    (.inr stage.solid_here)

include placed

/-- A path that leads somewhere below the directory shows it searchable. -/
theorem roomy_of_located
    {follow : Bool}
    {reached : Place}
    (located : locate files job.machine.process follow
      (child (descend job.dest names) name) = .ok reached)
    {upper : Perm}
    (above : files.node reached.dropLast = some (.dir upper))
    (allowed : job.machine.process.may upper .write = true) :
    Roomy job.machine.process (some (.dir perm)) := by
  obtain ⟨directory, again, entered⟩ :=
    enter_of_locate_child (locate_nonempty stage.located) located
  rw [stage.located, Except.ok.injEq] at again
  subst again
  rw [stage.arrives placed (fun _ _ => rfl) stage.solid_here located,
    List.dropLast_concat, here, Option.some.injEq, Node.dir.injEq] at above
  exact ⟨above ▸ allowed, (enter_iff here _).mp entered⟩

theorem roomy_of_makeEntry
    {node : Node}
    (made : makeEntry files job.machine.process
      (locate files job.machine.process false
        (child (descend job.dest names) name)) node = .ok later) :
    Roomy job.machine.process (some (.dir perm)) := by
  obtain ⟨reached, upper, located, _, above, allowed, _⟩ :=
    makeEntry_eq_ok.mp made
  exact stage.roomy_of_located placed here located above allowed

theorem roomy_of_openWrite
    {mode : BitVec 9}
    {reached : Place}
    (opened : openWrite files job.machine.process
      (child (descend job.dest names) name) mode = .ok (reached, later)) :
    Roomy job.machine.process (some (.dir perm)) := by
  obtain ⟨located, _, room⟩ := openWrite_ok opened
  have vacant : files.node reached = none := by
    rw [stage.arrives placed (fun _ _ => rfl) stage.solid_here located]
    exact stage.free_here
  obtain ⟨upper, above, allowed⟩ := room vacant
  exact stage.roomy_of_located placed here located above allowed

end Stage

section Entry

variable {state : Copying} {perm : Perm}
variable (ready : Ready job source origin)
variable (stage : Stage job origin names (name.val :: todo) state.files)
variable (here : state.files.node (origin ++ names) = some (.dir perm))
variable {src : Text}

include ready stage here

theorem copyLink_made
    {text : Text}
    (reads : readlink state.files job.machine.process (pathMax - 1) src =
      .ok text)
    (nonempty : text ≠ []) :
    (copyLink job.machine src (child (descend job.dest names) name)
        state).files.node (origin ++ names ++ [name]) =
      if Roomy job.machine.process (some (.dir perm)) then some (.link text)
      else none := by
  simp only [copyLink, reads, symlink, nonempty, if_false]
  by_cases roomy : Roomy job.machine.process (some (.dir perm))
  · simp only [stage.makeEntry_roomy here roomy, roomy, if_true]
    exact Files.node_put _ _ _
  · simp only [roomy, if_false]
    split
    · exact stage.free_here
    · rename_i made
      exact absurd (stage.roomy_of_makeEntry ready.toPlaced here made) roomy

/-- The permissions are set on the copy just made. -/
theorem copyMode_made
    (roomy : Roomy job.machine.process (some (.dir perm)))
    {seen : Perm}
    {content : List UInt8}
    (reports : ∀ later, Under job origin later →
      stat later job.machine.process src = .ok (.file seen content))
    {later : Copying}
    (same : SameOutside (origin ++ names ++ [name]) state.files later.files)
    {own : Perm}
    (mine : own.cls = .owner)
    (made : later.files.node (origin ++ names ++ [name]) =
      some (.file own content)) :
    (copyMode job.machine src (child (descend job.dest names) name)
        later).files.node (origin ++ names ++ [name]) =
      some (.file { mode := seen.mode, cls := .owner } content) := by
  have alone : Stage job origin names [name.val] state.files :=
    { under := stage.under
      located := stage.located
      opened := stage.opened
      free := fun other member =>
        stage.free other (List.mem_cons.mpr
          (.inl (List.mem_singleton.mp member))) }
  have after := alone.next ready.toPlaced (by simp) same
  have directory : later.files.node (origin ++ names) = some (.dir perm) := by
    rw [same, here]
    exact not_below_entry _ _
  have entered : enter later.files job.machine.process (origin ++ names) =
      .ok () :=
    enter_eq_ok.mpr ⟨perm, directory, roomy.2⟩
  have located : locate later.files job.machine.process true
      (child (descend job.dest names) name) =
      .ok (origin ++ names ++ [name]) :=
    locate_entry after.located entered (.inr (by
      simp only [Solid, made]
      simp))
  have changed : chmod later.files job.machine.process
      (child (descend job.dest names) name) seen.mode =
      .ok (later.files.put (origin ++ names ++ [name])
        (.file { own with mode := seen.mode } content)) := by
    simp only [chmod, located, made, mine, or_true, if_true]
  simp only [copyMode, reports _ after.under, mode, changed, Files.node_put,
    mine]

theorem copyContent_made
    {seen : Perm}
    {content : List UInt8}
    {reached : Place}
    (opens : openRead state.files job.machine.process src = .ok reached)
    (found : state.files.node reached = some (.file seen content))
    (outside : ¬ origin <+: reached)
    (reports : ∀ later, Under job origin later →
      stat later job.machine.process src = .ok (.file seen content)) :
    (copyContent job.machine src (child (descend job.dest names) name)
        job.copyPermissions state).files.node (origin ++ names ++ [name]) =
      if Roomy job.machine.process (some (.dir perm)) then
        some (job.goal (.file seen content))
      else none := by
  simp only [copyContent, opens]
  by_cases roomy : Roomy job.machine.process (some (.dir perm))
  · simp only [stage.openWrite_roomy here roomy, roomy, if_true]
    have distinct : reached ≠ origin ++ names ++ [name] := by
      rintro rfl
      exact outside (by simp)
    have read : (state.files.put (origin ++ names ++ [name])
        (.file (job.machine.process.masked 0o644#9) [])).node reached =
        some (.file seen content) :=
      (state.files.node_put_of_ne distinct _).trans found
    have turns : turnsFor (state.files.put (origin ++ names ++ [name])
        (.file (job.machine.process.masked 0o644#9) [])) reached =
        content.length + 1 := by
      simp only [turnsFor, read]
    obtain ⟨after, moved, made⟩ := transfer_all ready.writes src
      (child (descend job.dest names) name) distinct
      (Nat.lt_succ_self content.length) read
      (state.files.node_put (origin ++ names ++ [name]) _)
    have same := (sameElsewhere_put state.files (origin ++ names ++ [name])
      (.file (job.machine.process.masked 0o644#9) [])).trans
      (transfer_same job.machine src (child (descend job.dest names) name)
        reached (origin ++ names ++ [name]) (content.length + 1) 0 _
        (by simp only [Solid, Files.node_put]; simp)).1
    rw [List.length_nil] at moved
    rw [turns, moved] at *
    cases flag : job.copyPermissions with
    | false => simpa [Job.goal, flag] using made
    | true =>
        simp only [Job.goal, flag, if_true]
        exact copyMode_made ready stage here roomy reports same.sameOutside
          rfl made
  · simp only [roomy, if_false]
    split
    · exact stage.free_here
    · rename_i opened
      exact absurd (stage.roomy_of_openWrite ready.toPlaced here opened) roomy

end Entry

/-! ## The copy of a tree -/

/-- What stands at `rest` below the copy of what is seen at `names`. -/
def Job.made (job : Job) (source : Place) :
    List Name → List Name → Option Node
  | names, [] => (job.seen source names).map job.goal
  | names, name :: rest =>
      if Roomy job.machine.process ((job.seen source names).map job.goal) then
        job.made source (names ++ [name]) rest
      else none

theorem made_of_unseen
    (unseen : job.seen source names = none)
    (rest : List Name) :
    job.made source names rest = none := by
  cases rest with
  | nil => simp [Job.made, unseen]
  | cons name rest => simp [Job.made, unseen, Roomy]

/-- Nothing is made below what is no directory. -/
theorem made_of_plain
    {node : Node}
    (visible : job.seen source names = some node)
    (plain : ∀ perm, node ≠ .dir perm)
    (name : Name)
    (rest : List Name) :
    job.made source names (name :: rest) = none := by
  cases node with
  | dir perm => exact absurd rfl (plain perm)
  | file perm content => simp [Job.made, visible, Job.goal, Roomy]
  | link text => simp [Job.made, visible, Job.goal, Roomy]

/-- What the calls of the loop make, where something can be made. -/
def CallsMade
    (job : Job)
    (source origin : Place)
    (names : List Name)
    (recurse : Text → Text → Copying → Option Copying) : Prop :=
  ∀ name reached state after, Leads job source (names ++ [name]) reached →
    Landing job origin (names ++ [name]) state.files →
      recurse (descend job.src (names ++ [name]))
          (descend job.dest (names ++ [name])) state = some after →
        ((∃ mode later, mkdir state.files job.machine.process
            (descend job.dest (names ++ [name])) mode = .ok later) →
          ∀ rest, after.files.node (origin ++ (names ++ [name]) ++ rest) =
            job.made source (names ++ [name]) rest) ∧
        ((∀ mode later, mkdir state.files job.machine.process
            (descend job.dest (names ++ [name])) mode ≠ .ok later) →
          after.files = state.files)

/-- What is no link is reported by `stat` while the copy is under way. -/
theorem stat_later
    (ready : Ready job source origin)
    (under : Under job origin later)
    (leads : Leads job source names place)
    {node : Node}
    (visible : job.seen source (names ++ [name]) = some node)
    (plain : ∀ text, node ≠ .link text) :
    stat later job.machine.process (descend job.src (names ++ [name])) =
      .ok node := by
  have before : ∃ reached, locate job.files job.machine.process true
      (descend job.src (names ++ [name])) = .ok reached ∧
      job.files.node reached = some node := by
    cases flag : job.copySymlinks with
    | true =>
        rw [ready.seen_entry leads (.inl flag)] at visible
        refine ⟨_, ready.located_entry leads (by simp [visible]) (.inr ?_),
          visible⟩
        simpa [Solid, visible] using plain
    | false => exact status_eq_ok.mp ((seen_eq_some flag).mp visible)
  obtain ⟨reached, located, found⟩ := before
  obtain ⟨again, there, _⟩ := located_later ready.absent under.same
    ready.home_not_below located found
  exact status_eq_ok.mpr ⟨reached, again, there⟩

section Loop

variable {recurse : Text → Text → Copying → Option Copying}
variable {state after : Copying} {perm : Perm}
variable (ready : Ready job source origin)
variable (apart : Apart job source origin)
variable (leads : Leads job source names place)
variable (lists : job.Lists place)
variable (callsMade : CallsMade job source origin names recurse)

/-- What `copy_file` makes of an entry stands at its place, and nothing
below. -/
theorem made_of_copyFile
    (placed : Placed job source origin)
    (stage : Stage job origin names (name.val :: todo) state.files)
    {copied : Option Node}
    (visible : job.seen source (names ++ [name]) = copied)
    (plain : ∀ seen, copied ≠ some (.dir seen))
    (result : copyFile job.machine job.copySymlinks job.copyPermissions
      (descend job.src (names ++ [name]))
      (child (descend job.dest names) name) state = after)
    (top : after.files.node (origin ++ names ++ [name]) =
      if Roomy job.machine.process (some (.dir perm)) then
        copied.map job.goal
      else none)
    (rest : List Name) :
    after.files.node (origin ++ names ++ name :: rest) =
      if Roomy job.machine.process (some (.dir perm)) then
        job.made source (names ++ [name]) rest
      else none := by
  cases rest with
  | nil => simpa [Job.made, visible] using top
  | cons lower rest =>
      have untouched := copyFile_same placed stage
        (descend job.src (names ++ [name])) job.copySymlinks
        job.copyPermissions (origin ++ names ++ name :: lower :: rest)
        (by simp)
      rw [← result, untouched, stage.free name (.head _)]
      have below : job.made source (names ++ [name]) (lower :: rest) =
          none := by
        cases copied with
        | none => exact made_of_unseen visible _
        | some node =>
            exact made_of_plain visible
              (fun seen equal => plain seen (by rw [equal])) _ _
      simp [below]

include ready apart leads callsMade

theorem copyEntry_made
    (stage : Stage job origin names (name.val :: todo) state.files)
    (here : state.files.node (origin ++ names) = some (.dir perm))
    {node : Node}
    (present : job.files.node (place ++ [name]) = some node)
    (returned : copyEntry job recurse (descend job.src (names ++ [name]))
      (descend job.dest (names ++ [name])) state = some after)
    (rest : List Name) :
    after.files.node (origin ++ names ++ name :: rest) =
      if Roomy job.machine.process (some (.dir perm)) then
        job.made source (names ++ [name]) rest
      else none := by
  have finds := finds_later ready stage.under apart leads present
  unfold copyEntry at returned
  rw [descend_concat job.dest] at returned
  generalize visible : job.seen source (names ++ [name]) = seen at finds
  cases finds with
  | directory lstats directory =>
      simp only [lstats, directory, if_true] at returned
      rw [← descend_concat job.dest] at returned
      obtain ⟨reached, deeper⟩ := ready.leads_of_seen visible
      obtain ⟨makes, refused⟩ := callsMade name reached state after deeper
        (stage.landing ready.toPlaced) returned
      by_cases roomy : Roomy job.machine.process (some (.dir perm))
      · rw [if_pos roomy, ← makes ⟨0, _, by
          rw [descend_concat, mkdir, locateNew_child]
          exact stage.makeEntry_roomy here roomy _⟩ rest]
        simp
      · rw [if_neg roomy, refused]
        · exact stage.free name (.head _) rest
        · intro mode later made
          rw [descend_concat, mkdir, locateNew_child] at made
          exact roomy (stage.roomy_of_makeEntry ready.toPlaced here made)
  | file lstats plain followed opens found outside =>
      simp only [lstats, plain, Bool.false_eq_true, if_false,
        Option.some.injEq] at returned
      refine made_of_copyFile ready.toPlaced stage visible (by simp) returned
        ?_ rest
      rw [← returned]
      simp only [copyFile, lstats, followed, Bool.false_eq_true, if_false]
      exact copyContent_made ready stage here opens found outside
        fun later under => stat_later ready under leads visible (by simp)
  | link lstats plain kept reads nonempty =>
      simp only [lstats, plain, Bool.false_eq_true, if_false,
        Option.some.injEq] at returned
      refine made_of_copyFile ready.toPlaced stage visible (by simp) returned
        ?_ rest
      rw [← returned]
      simp only [copyFile, lstats, kept, if_true]
      exact copyLink_made ready stage here reads nonempty
  | dangling lstats plain followed fails =>
      simp only [lstats, plain, Bool.false_eq_true, if_false,
        Option.some.injEq] at returned
      refine made_of_copyFile ready.toPlaced stage visible (by simp) returned
        ?_ rest
      rw [← returned]
      simp only [copyFile, lstats, followed, Bool.false_eq_true, if_false,
        copyContent, fails, Option.map_none, ite_self]
      exact stage.free_here

include lists

theorem copyEntries_made
    (calls : Calls job source origin names recurse)
    {todo : List Text}
    (listed : Listed job place todo)
    (nodup : todo.Nodup)
    {state : Copying}
    (stage : Stage job origin names todo state.files)
    (here : state.files.node (origin ++ names) = some (.dir perm))
    (returned : copyEntries job.machine job.copySymlinks job.copyPermissions
      recurse (descend job.src names) (descend job.dest names) todo state =
      some after)
    (name : Name)
    (member : name.val ∈ todo)
    (rest : List Name) :
    after.files.node (origin ++ names ++ name :: rest) =
      if Roomy job.machine.process (some (.dir perm)) then
        job.made source (names ++ [name]) rest
      else none := by
  induction todo generalizing state with
  | nil => cases member
  | cons text todo ih =>
      obtain ⟨fresh, unique⟩ := List.nodup_cons.mp nodup
      have others : Listed job place todo :=
        fun text member => listed text (.tail _ member)
      rcases listed text (.head _) with dot | ⟨first, rfl, present⟩
      · rw [copyEntries_dot dot] at returned
        refine ih others unique stage.skip here returned ?_
        rcases List.mem_cons.mp member with rfl | later
        · rcases dot with dot | dots
          · exact absurd dot name.property.2.1
          · exact absurd dots name.property.2.2.1
        · exact later
      · rw [copyEntries_name
          (ready.short.entries _ _ _ leads lists present)] at returned
        obtain ⟨middle, step, following⟩ := Option.bind_eq_some_iff.mp returned
        obtain ⟨known, again, same⟩ :=
          copyEntry_same ready.toPlaced apart leads lists calls stage
        obtain rfl : known = middle := Option.some.inj (again.symm.trans step)
        have next := stage.next ready.toPlaced fresh same
        have still : known.files.node (origin ++ names) =
            some (.dir perm) := by
          rw [same, here]
          exact not_below_entry _ _
        rcases List.mem_cons.mp member with equal | later
        · obtain rfl := Subtype.ext equal
          obtain ⟨final, finished, kept⟩ := copyEntries_same ready.toPlaced
            apart leads lists calls others unique known next
          obtain rfl : final = after :=
            Option.some.inj (finished.symm.trans following)
          obtain ⟨node, found⟩ := Option.ne_none_iff_exists'.mp present
          rw [kept]
          · exact copyEntry_made ready apart leads callsMade stage here found
              step rest
          · rintro other elsewhere ⟨more, overlap⟩
            rw [List.append_assoc, List.append_cancel_left_eq] at overlap
            simp only [List.singleton_append, List.cons.injEq] at overlap
            exact fresh (overlap.1 ▸ elsewhere)
        · exact ih others unique next still following later

/-- The loop of a call makes what is to be made in its directory. -/
theorem loop_made
    (calls : Calls job source origin names recurse)
    (state : Copying)
    (stage : Stage job origin names
      (job.machine.readdirOrder (descend job.src names)
        (['.'] :: ['.', '.'] ::
          (entries state.files place).map Subtype.val)) state.files)
    (empty : ∀ (name : Name) rest,
      state.files.node (origin ++ names ++ name :: rest) = none)
    (here : state.files.node (origin ++ names) = some (.dir perm))
    (returned : copyEntries job.machine job.copySymlinks job.copyPermissions
      recurse (descend job.src names) (descend job.dest names)
      (job.machine.readdirOrder (descend job.src names)
        (['.'] :: ['.', '.'] ::
          (entries state.files place).map Subtype.val)) state = some after)
    (name : Name)
    (rest : List Name) :
    after.files.node (origin ++ names ++ name :: rest) =
      if Roomy job.machine.process (some (.dir perm)) then
        job.made source (names ++ [name]) rest
      else none := by
  have listed := listed_order ready.toPlaced apart leads lists stage.under
    (descend job.src names)
  have nodup := nodup_order job.machine (descend job.src names) state.files
    place
  by_cases present : name ∈ entries state.files place
  · refine copyEntries_made ready apart leads lists callsMade calls listed nodup
      stage here returned name ?_ rest
    rw [(job.machine.readdirOrder_perm _ _).mem_iff]
    exact .tail _ (.tail _ (List.mem_map_of_mem present))
  · rw [mem_entries_later ready.toPlaced apart stage.under leads lists,
      not_not] at present
    have unseen := ready.seen_absent leads present
    obtain ⟨known, again, kept⟩ := copyEntries_same ready.toPlaced apart
      leads lists calls listed nodup state stage
    obtain rfl : known = after := Option.some.inj (again.symm.trans returned)
    rw [made_of_unseen unseen, ite_self, kept, empty]
    rintro other member ⟨more, overlap⟩
    rw [List.append_assoc, List.append_cancel_left_eq] at overlap
    simp only [List.singleton_append, List.cons.injEq] at overlap
    obtain rfl := overlap.1
    rcases listed _ member with (dot | dots) | ⟨found, equal, there⟩
    · exact other.property.2.1 dot
    · exact other.property.2.2.1 dots
    · exact there (Subtype.ext equal ▸ present)

/-- A call that has made its directory, and listed one, makes all below. -/
theorem listed_made
    (calls : Calls job source origin names recurse)
    (state : Copying)
    (stage : Stage job origin names
      (job.machine.readdirOrder (descend job.src names)
        (['.'] :: ['.', '.'] ::
          (entries state.files place).map Subtype.val)) state.files)
    (empty : ∀ (name : Name) rest,
      state.files.node (origin ++ names ++ name :: rest) = none)
    (here : state.files.node (origin ++ names) = some (.dir perm))
    (goal : some (.dir perm) = (job.seen source names).map job.goal)
    (returned : copyEntries job.machine job.copySymlinks job.copyPermissions
      recurse (descend job.src names) (descend job.dest names)
      (job.machine.readdirOrder (descend job.src names)
        (['.'] :: ['.', '.'] ::
          (entries state.files place).map Subtype.val)) state = some after)
    (rest : List Name) :
    after.files.node (origin ++ names ++ rest) =
      job.made source names rest := by
  cases rest with
  | nil =>
      obtain ⟨known, again, kept⟩ := copyEntries_same ready.toPlaced
        apart leads lists calls
        (listed_order ready.toPlaced apart leads lists stage.under _)
        (nodup_order _ _ _ _) state stage
      obtain rfl : known = after :=
        Option.some.inj (again.symm.trans returned)
      rw [List.append_nil, kept]
      · exact here.trans goal
      · intro name _
        exact not_below_entry _ _
  | cons name rest =>
      rw [Job.made, ← goal]
      exact loop_made ready apart leads lists callsMade calls state stage
        empty here returned name rest

end Loop

/--
`copy_directory` makes what it is to make, or nothing where nothing can be
made.
-/
theorem copyDirectory_made
    (ready : Ready job source origin)
    (apart : Apart job source origin)
    {bound : Nat}
    (deep : ∀ names place, Leads job source names place →
      names.length < bound)
    {depth : Nat}
    (leads : Leads job source names place)
    (enough : bound ≤ depth + names.length)
    {state after : Copying}
    (landing : Landing job origin names state.files)
    (returned : copyDirectory job.machine job.copySymlinks
      job.copyPermissions depth (descend job.src names)
      (descend job.dest names) state = some after) :
    ((∃ mode later, mkdir state.files job.machine.process
        (descend job.dest names) mode = .ok later) →
      ∀ rest, after.files.node (origin ++ names ++ rest) =
        job.made source names rest) ∧
    ((∀ mode later, mkdir state.files job.machine.process
        (descend job.dest names) mode ≠ .ok later) →
      after.files = state.files) := by
  induction depth generalizing names place state after with
  | zero => cases returned
  | succ depth ih =>
      obtain ⟨perm, directory⟩ := ready.leads_directory leads
      have visible := (seen_of_leads ready.toPlaced leads).trans directory
      have stats : stat state.files job.machine.process
          (descend job.src names) = .ok (.dir perm) := by
        obtain ⟨located, there⟩ :=
          leads_later ready.toPlaced landing.under leads
        exact status_eq_ok.mpr ⟨place, located, there.trans directory⟩
      rw [copyDirectory, stats] at returned
      dsimp only at returned
      constructor
      · rintro ⟨chosen, later, makeable⟩ rest
        obtain ⟨reached, upper, located, vacant, above, permitted, _⟩ :=
          makeEntry_eq_ok.mp makeable
        obtain ⟨files, made⟩ : ∃ files, mkdir state.files job.machine.process
            (descend job.dest names)
            (if job.copyPermissions then mode (.dir perm) else 0o755#9) =
            .ok files :=
          ⟨_, makeEntry_eq_ok.mpr
            ⟨reached, upper, located, vacant, above, permitted, rfl⟩⟩
        have empty : ∀ (name : Name) rest,
            files.node (origin ++ names ++ name :: rest) = none :=
          fun name rest => (landing.stage ready.toPlaced made [name.val]).1.free
            name (.head _) rest
        have goal : some (Node.dir (job.machine.process.masked
            (if job.copyPermissions then mode (.dir perm) else 0o755#9))) =
            (job.seen source names).map job.goal := by
          simp [visible, Job.goal, mode]
        rw [made] at returned
        dsimp only at returned
        rcases opened : opendir files job.machine.process
            (descend job.src names) with fault | listing
        · -- what cannot be listed has no entries
          obtain ⟨stage, _, here⟩ := landing.stage ready.toPlaced made []
          rw [opened] at returned
          dsimp only [Option.some.injEq] at returned
          obtain rfl := Option.some.inj returned
          cases rest with
          | nil => simpa [Copying.perror, Job.made, ← goal] using here
          | cons name rest =>
              have absent : job.files.node (place ++ [name]) = none := by
                by_contra present
                rw [opendir_later ready.toPlaced stage.under leads
                  (ready.lists leads present)] at opened
                cases opened
              rw [Job.made, made_of_unseen (ready.seen_absent leads absent),
                ite_self]
              exact empty name rest
        · obtain ⟨stage, same, here⟩ := landing.stage ready.toPlaced made
            (job.machine.readdirOrder (descend job.src names)
              (['.'] :: ['.', '.'] :: listing.map Subtype.val))
          obtain ⟨lists, rfl⟩ :=
            lists_later ready.toPlaced stage.under leads opened
          rw [opened] at returned
          dsimp only at returned
          have calls : Calls job source origin names
              (copyDirectory job.machine job.copySymlinks job.copyPermissions
                depth) := by
            intro name reached state deeper landing
            exact copyDirectory_same ready.toPlaced apart deep depth deeper
              (by simp; omega) state landing
          have callsMade : CallsMade job source origin names
              (copyDirectory job.machine job.copySymlinks job.copyPermissions
                depth) := by
            intro name reached state after deeper landing returned
            exact ih deeper (by simp; omega) landing returned
          exact listed_made ready apart leads lists callsMade calls
            { state with files := files } stage empty here goal returned rest
      · intro refused
        split at returned
        · cases returned
          rfl
        · rename_i files made
          exact absurd made (refused _ _)

end OSCourse.CopyTree
