import OSCourse.CopyTree.Copy

/-!
# The tree the copier walks

A `Job` is one call of `copy_directory`.  The copier goes down from `src` along
names: into directories and, without `-l`, through links to directories.
`Leads` says where such a path leads before the call, through directories that
`opendir` lists.

The copier writes below the free place `origin` of `dest` while it reads.  When
`origin` is `Apart` from what it walks, it does not notice: every path still
leads where it led, and every directory keeps its entries.
-/

namespace OSCourse.CopyTree

open OSCourse.Library.FileTree

/-- A file tree as a kernel keeps it. -/
structure WellFormed (files : Files) : Prop where
  root : ∃ perm, files.node [] = some (.dir perm)
  closed : Closed files
  targets :
    ∀ place text, files.node place = some (.link text) →
      text ≠ [] ∧ text.length < pathMax

theorem WellFormed.node_below
    {files : Files}
    (wellFormed : WellFormed files)
    {origin : Place}
    (absent : files.node origin = none)
    (names : List Name) :
    files.node (origin ++ names) = none := by
  induction names using List.reverseRecOn with
  | nil => simpa using absent
  | append_singleton names name ih =>
      by_contra present
      rw [← List.append_assoc] at present
      obtain ⟨perm, found⟩ := wellFormed.closed _ _ present
      rw [ih] at found
      cases found

theorem wellFormed_root (perm : Perm) :
    WellFormed (Files.put ∅ [] (.dir perm)) where
  root := ⟨perm, Files.node_put _ _ _⟩
  closed place name present := by
    rw [Files.node_put_of_ne _ (by simp)] at present
    exact absurd rfl present
  targets place text found := by
    by_cases top : place = []
    · rw [top, Files.node_put] at found
      cases found
    · rw [Files.node_put_of_ne _ top] at found
      cases found

/-- A new entry of a directory keeps a tree well-formed. -/
theorem WellFormed.put
    {files : Files}
    (wellFormed : WellFormed files)
    (directory : Place)
    (name : Name)
    (perm : Perm)
    {node : Node}
    (above : files.node directory = some (.dir perm))
    (vacant : files.node (directory ++ [name]) = none)
    (target : ∀ text, node = .link text →
      text ≠ [] ∧ text.length < pathMax) :
    WellFormed (files.put (directory ++ [name]) node) where
  root := by
    obtain ⟨top, found⟩ := wellFormed.root
    exact ⟨top, (files.node_put_of_ne (by simp) node).trans found⟩
  closed place entry present := by
    by_cases here : place ++ [entry] = directory ++ [name]
    · obtain ⟨rfl, _⟩ := List.append_inj' here rfl
      exact ⟨perm, (files.node_put_of_ne (by simp) node).trans above⟩
    · rw [files.node_put_of_ne here] at present
      obtain ⟨upper, found⟩ := wellFormed.closed _ _ present
      refine ⟨upper, (files.node_put_of_ne ?_ node).trans found⟩
      rintro rfl
      rw [vacant] at found
      cases found
  targets place text found := by
    by_cases here : place = directory ++ [name]
    · rw [here, Files.node_put, Option.some.injEq] at found
      exact target text found
    · rw [files.node_put_of_ne here] at found
      exact wellFormed.targets place text found

/-- One call of `copy_directory`. -/
structure Job where
  machine : Machine
  copySymlinks : Bool
  copyPermissions : Bool
  src : Text
  dest : Text
  files : Files

/-- The call, with `depth` levels of recursion to use. -/
def Job.run (job : Job) (depth : Nat) : Option Copying :=
  copyDirectory job.machine job.copySymlinks job.copyPermissions depth
    job.src job.dest ⟨job.files, []⟩

variable {job : Job} {source origin place : Place} {later : Files}
variable {names : List Name} {name : Name}

/-- `opendir` lists the directory. -/
def Job.Lists (job : Job) (place : Place) : Prop :=
  ∃ perm, job.files.node place = some (.dir perm) ∧
    job.machine.process.may perm .read = true

/--
The directory that the copier comes to along `names`: an entry of the one
before, or without `-l` what a link there leads to.
-/
inductive Leads (job : Job) (source : Place) : List Name → Place → Prop where
  | source : Leads job source [] source
  | directory
      {names : List Name}
      {place : Place}
      {name : Name}
      {perm : Perm}
      (above : Leads job source names place)
      (lists : job.Lists place)
      (entered : enter job.files job.machine.process place = .ok ())
      (found : job.files.node (place ++ [name]) = some (.dir perm)) :
      Leads job source (names ++ [name]) (place ++ [name])
  | link
      {names : List Name}
      {place reached : Place}
      {name : Name}
      {text : Text}
      {perm : Perm}
      (flag : job.copySymlinks = false)
      (above : Leads job source names place)
      (lists : job.Lists place)
      (linked : job.files.node (place ++ [name]) = some (.link text))
      (located :
        locate job.files job.machine.process true
            (descend job.src (names ++ [name])) = .ok reached)
      (found : job.files.node reached = some (.dir perm)) :
      Leads job source (names ++ [name]) reached

theorem Leads.directory_of
    (directory : ∃ perm, job.files.node source = some (.dir perm))
    (leads : Leads job source names place) :
    ∃ perm, job.files.node place = some (.dir perm) := by
  cases leads with
  | source => exact directory
  | directory above lists entered found => exact ⟨_, found⟩
  | link flag above lists linked located found => exact ⟨_, found⟩

theorem Leads.located
    (start : locate job.files job.machine.process true job.src = .ok source)
    (leads : Leads job source names place) :
    locate job.files job.machine.process true (descend job.src names) =
      .ok place := by
  induction leads with
  | source => exact start
  | directory above lists entered found ih =>
      rw [descend_concat]
      exact locate_entry ih entered (.inr (by simp [Solid, found]))
  | link flag above lists linked located found => exact located

/-- `src` leads to the directory `source` and `dest` to the free `origin`. -/
structure Aimed (job : Job) (source origin : Place) : Prop where
  wellFormed : WellFormed job.files
  home : ∃ perm, job.files.node job.machine.process.cwd = some (.dir perm)
  located :
    locate job.files job.machine.process true job.src = .ok source
  directory : ∃ perm, job.files.node source = some (.dir perm)
  target :
    locateNew job.files job.machine.process job.dest = .ok origin
  absent : job.files.node origin = none

/-- No path that the copier uses reaches `PATH_MAX`. -/
structure Short (job : Job) (source : Place) : Prop where
  ends : job.src.length < pathMax ∧ job.dest.length < pathMax
  entries :
    ∀ names place name, Leads job source names place → job.Lists place →
      job.files.node (place ++ [name]) ≠ none →
        (descend job.src (names ++ [name])).length < pathMax ∧
          (descend job.dest (names ++ [name])).length < pathMax

/-- The paths of the call lead where they should, and none is cut. -/
structure Placed (job : Job) (source origin : Place) : Prop extends
    Aimed job source origin where
  short : Short job source

/--
`dest` does not lie in a directory that the copier lists, and no link leads the
copier to the place where `dest` is still missing.
-/
structure Apart (job : Job) (source origin : Place) : Prop where
  beside :
    ∀ names place name, Leads job source names place → job.Lists place →
      place ++ [name] ≠ origin
  unlinked :
    job.copySymlinks = false → ∀ names place name,
      Leads job source names place → job.Lists place →
        job.files.node (place ++ [name]) ≠ none →
          stat job.files job.machine.process
            (descend job.src (names ++ [name])) ≠ .error (.missing origin)

/-- The files of a copy under way: only `origin` and what is below it
differs. -/
structure Under (job : Job) (origin : Place) (later : Files) : Prop where
  same : SameOutside origin job.files later
  solid : Solid later origin

namespace Placed

theorem below (placed : Placed job source origin) (names : List Name) :
    job.files.node (origin ++ names) = none :=
  placed.wellFormed.node_below placed.absent names

theorem not_below
    (placed : Placed job source origin)
    {node : Node}
    (found : job.files.node place = some node) :
    ¬ origin <+: place := by
  rintro ⟨names, rfl⟩
  rw [placed.below names] at found
  cases found

theorem home_not_below (placed : Placed job source origin) :
    ¬ origin <+: job.machine.process.cwd := by
  obtain ⟨perm, found⟩ := placed.home
  exact placed.not_below found

theorem descend_nonempty
    (placed : Placed job source origin)
    (names : List Name) :
    descend job.src names ≠ [] := by
  have nonempty := List.length_pos_iff.mpr (locate_nonempty placed.located)
  have longer := length_descend job.src names
  exact List.length_pos_iff.mp (by omega)

theorem under (placed : Placed job source origin) :
    Under job origin job.files where
  same := fun _ _ => rfl
  solid := by simp [Solid, placed.absent]

theorem leads_directory
    (placed : Placed job source origin)
    (leads : Leads job source names place) :
    ∃ perm, job.files.node place = some (.dir perm) :=
  leads.directory_of placed.directory

theorem leads_located
    (placed : Placed job source origin)
    (leads : Leads job source names place) :
    locate job.files job.machine.process true (descend job.src names) =
      .ok place :=
  leads.located placed.located

end Placed

namespace Leads

/-- With `-l` the copier goes down the directories themselves. -/
theorem literal
    (leads : Leads job source names place)
    (flag : job.copySymlinks = true) :
    place = source ++ names := by
  induction leads with
  | source => simp
  | directory above lists entered found ih => simp [ih]
  | link unset above lists linked located found => simp [flag] at unset

/-- The copier comes to a directory through the directories above it. -/
theorem parent
    (leads : Leads job source (names ++ [name]) place) :
    ∃ above, Leads job source names above ∧ job.Lists above ∧
      job.files.node (above ++ [name]) ≠ none := by
  generalize whole : names ++ [name] = path at leads
  cases leads with
  | source => simp at whole
  | directory above lists entered found =>
      obtain ⟨rfl, last⟩ := List.append_inj' whole rfl
      obtain rfl := List.singleton_inj.mp last
      exact ⟨_, above, lists, by simp [found]⟩
  | link flag above lists linked located found =>
      obtain ⟨rfl, last⟩ := List.append_inj' whole rfl
      obtain rfl := List.singleton_inj.mp last
      exact ⟨_, above, lists, by simp [linked]⟩

end Leads

/-! ## The tree while the copy is under way -/

section Later

variable (placed : Placed job source origin)
variable (apart : Apart job source origin)
variable (under : Under job origin later)

include placed under

theorem leads_later
    (leads : Leads job source names place) :
    locate later job.machine.process true (descend job.src names) =
        .ok place ∧
      later.node place = job.files.node place := by
  obtain ⟨perm, found⟩ := placed.leads_directory leads
  obtain ⟨again, there, _⟩ :=
    located_later placed.absent under.same placed.home_not_below
      (placed.leads_located leads) found
  exact ⟨again, there.trans found.symm⟩

/-- `opendir` lists a directory as before. -/
theorem opendir_later
    (leads : Leads job source names place)
    (lists : job.Lists place) :
    opendir later job.machine.process (descend job.src names) =
      .ok (entries later place) := by
  obtain ⟨located, there⟩ := leads_later placed under leads
  obtain ⟨perm, found, allowed⟩ := lists
  simp only [opendir, located, there.trans found, allowed, if_true]

/-- A directory that `opendir` opens under way was listed before. -/
theorem lists_later
    (leads : Leads job source names place)
    {listing : List Name}
    (opened : opendir later job.machine.process (descend job.src names) =
      .ok listing) :
    job.Lists place ∧ listing = entries later place := by
  obtain ⟨reached, perm, again, found, allowed, rfl⟩ := opendir_ok opened
  obtain ⟨located, there⟩ := leads_later placed under leads
  obtain rfl : reached = place := Except.ok.inj (again.symm.trans located)
  exact ⟨⟨perm, there ▸ found, allowed⟩, rfl⟩

include apart

/-- A directory that the copier lists keeps its entries. -/
theorem entry_later
    (leads : Leads job source names place)
    (lists : job.Lists place)
    (name : Name) :
    later.node (place ++ [name]) = job.files.node (place ++ [name]) := by
  obtain ⟨perm, found⟩ := placed.leads_directory leads
  exact under.same _ (not_below_concat (placed.not_below found)
    (apart.beside _ _ name leads lists))

theorem mem_entries_later
    (leads : Leads job source names place)
    (lists : job.Lists place) :
    name ∈ entries later place ↔ job.files.node (place ++ [name]) ≠ none := by
  rw [mem_entries, entry_later placed apart under leads lists name]

/-- What `lstat` finds of an entry stands in the directory. -/
theorem lstat_later
    (leads : Leads job source names place)
    (lists : job.Lists place)
    {node : Node}
    (found : lstat later job.machine.process
      (child (descend job.src names) name) = .ok node) :
    enter job.files job.machine.process place = .ok () ∧
      job.files.node (place ++ [name]) = some node := by
  obtain ⟨located, there⟩ := leads_later placed under leads
  obtain ⟨reached, again, entered⟩ :=
    status_child (placed.descend_nonempty names) found
  obtain rfl : reached = place :=
    Except.ok.inj (again.symm.trans located)
  obtain ⟨stopped, here, held⟩ := status_eq_ok.mp found
  rw [locate_entry located entered (.inl rfl), Except.ok.injEq] at here
  subst here
  refine ⟨?_, ?_⟩
  · obtain ⟨perm, directory, allowed⟩ := enter_eq_ok.mp entered
    exact enter_eq_ok.mpr ⟨perm, there ▸ directory, allowed⟩
  · rw [← held, entry_later placed apart under leads lists name]

/-- Where `copy_directory` calls itself, the path led to a directory before. -/
theorem leads_of_isDir
    (leads : Leads job source names place)
    (lists : job.Lists place)
    {node : Node}
    (found : lstat later job.machine.process
      (child (descend job.src names) name) = .ok node)
    (directory : isDir job.machine job.copySymlinks
      (child (descend job.src names) name) node later = true) :
    ∃ reached, Leads job source (names ++ [name]) reached := by
  obtain ⟨entered, there⟩ := lstat_later placed apart under leads lists found
  cases node with
  | dir perm => exact ⟨_, .directory leads lists entered there⟩
  | file perm content => simp [isDir, isDirectory, isLink] at directory
  | link text =>
      simp only [isDir, isDirectory, isLink, Bool.false_or, Bool.true_and,
        Bool.and_eq_true, Bool.not_eq_true'] at directory
      obtain ⟨flag, followed⟩ := directory
      rcases reported : stat later job.machine.process
          (child (descend job.src names) name) with fault | target
      · simp [reported] at followed
      · cases target with
        | dir perm =>
            have unmissed := apart.unlinked flag names place name leads
              lists (by simp [there])
            rw [descend_concat] at unmissed
            rcases before : stat job.files job.machine.process
                (child (descend job.src names) name) with fault | node
            · have still := status_fails_later placed.absent under.same
                placed.home_not_below before (by
                  rintro rfl
                  exact unmissed before)
              rw [stat, still] at reported
              cases reported
            · obtain ⟨reached, located, held⟩ := status_eq_ok.mp before
              obtain ⟨again, same, _⟩ := located_later placed.absent
                under.same placed.home_not_below located held
              have known : stat later job.machine.process
                  (child (descend job.src names) name) = .ok node :=
                status_eq_ok.mpr ⟨reached, again, same⟩
              rw [reported, Except.ok.injEq] at known
              subst known
              exact ⟨reached, .link flag leads lists there
                (by rwa [descend_concat]) held⟩
        | file perm content => simp [reported] at followed
        | link text => simp [reported] at followed

end Later

end OSCourse.CopyTree
