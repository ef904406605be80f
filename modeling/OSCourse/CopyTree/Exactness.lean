import OSCourse.CopyTree.Content

/-!
# When a copy is exact

A call that returns has made `Job.made` below the place of `dest`.  Where the
process may make entries in every directory it has made, that is the tree seen
below `src`.  Without `-p` and with a umask that leaves the owner bits this is
always so, provided no link leads the copier to the place of `dest`.

With `-p` a directory gets its mode from `mkdir`, so the umask takes bits away,
and it gets it before its entries are made.
-/

namespace OSCourse.CopyTree

open OSCourse.Library.FileTree

variable {job : Job} {source origin place : Place}
variable {names : List Name} {name : Name}

/-! ## Whole calls -/

/-- `depth` levels go to the bottom of the tree that the copier walks. -/
def Suffices (job : Job) (source : Place) (depth : Nat) : Prop :=
  ∀ names place, Leads job source names place → names.length < depth

/-- The paths of directories are shorter than `PATH_MAX`. -/
theorem Placed.deep (placed : Placed job source origin) :
    Suffices job source pathMax := by
  intro names place leads
  rcases List.eq_nil_or_concat names with rfl | ⟨above, name, rfl⟩
  · simp [pathMax]
  · rw [List.concat_eq_append] at leads ⊢
    obtain ⟨upper, parent, lists, present⟩ := leads.parent
    have short := (placed.short.entries _ _ _ parent lists present).1
    have longer := length_descend job.src (above ++ [name])
    omega

/-- A call returns, and does the same with any levels that suffice. -/
theorem run_same
    (placed : Placed job source origin)
    (apart : Apart job source origin) :
    ∃ after, (∀ depth, Suffices job source depth → job.run depth = some after) ∧
      SameOutside origin job.files after.files := by
  have returns : ∀ depth, Suffices job source depth →
      ∃ after, job.run depth = some after ∧
        SameOutside origin job.files after.files := by
    intro depth enough
    have returned := copyDirectory_same placed apart enough depth .source
      (by simp) ⟨job.files, []⟩ placed.landing
    rwa [List.append_nil] at returned
  obtain ⟨after, returned, same⟩ := returns pathMax placed.deep
  refine ⟨after, fun depth enough => ?_, same⟩
  obtain ⟨other, again, _⟩ := returns depth enough
  have first := copyDirectory_mono (Nat.le_max_left pathMax depth) returned
  have second := copyDirectory_mono (Nat.le_max_right pathMax depth) again
  rw [again, Option.some.inj (second.symm.trans first)]

/-- `mkdir` succeeds for `dest`, and makes `origin`. -/
structure Makeable (job : Job) (origin : Place) : Prop where
  target : locateNew job.files job.machine.process job.dest = .ok origin
  absent : job.files.node origin = none
  room : job.Room origin

/-- A call whose `mkdir` fails returns at once. -/
theorem run_of_unmakeable
    {perm : Perm}
    (reported : stat job.files job.machine.process job.src = .ok (.dir perm))
    (unmakeable : ∀ origin, ¬ Makeable job origin)
    (depth : Nat) :
    job.run (depth + 1) = some ⟨job.files, ["mkdir failed"]⟩ := by
  rw [Job.run, copyDirectory]
  simp only [reported]
  split
  · rfl
  · rename_i files made
    obtain ⟨origin, upper, target, absent, above, allowed, _⟩ :=
      makeEntry_eq_ok.mp made
    exact absurd ⟨target, absent, upper, above, allowed⟩ (unmakeable origin)

/-- What a call that returns has made of `dest`. -/
theorem run_made
    (ready : Ready job source origin)
    (apart : Apart job source origin)
    {depth : Nat}
    (enough : Suffices job source depth)
    {after : Copying}
    (returned : job.run depth = some after)
    (names : List Name) :
    after.files.node (origin ++ names) = job.made source [] names := by
  have landing : Landing job origin []
      (Copying.files ⟨job.files, []⟩) :=
    ready.landing
  have made := (copyDirectory_made ready apart enough .source
    (by simp) landing returned).1
  obtain ⟨perm, above, allowed⟩ := ready.room
  have whole := made ⟨0, _, makeEntry_eq_ok.mpr
    ⟨origin, perm, ready.target, ready.absent, above, allowed, rfl⟩⟩ names
  rwa [List.append_nil] at whole

/-! ## What is made, and what is seen -/

theorem Ready.seen_below
    (ready : Ready job source origin)
    (unseen : job.seen source names = none)
    (rest : List Name) :
    job.seen source (names ++ rest) = none := by
  induction rest using List.reverseRecOn with
  | nil => simpa using unseen
  | append_singleton rest name ih =>
      by_contra visible
      rw [← List.append_assoc] at visible
      obtain ⟨perm, found⟩ := ready.seen_parent visible
      rw [ih] at found
      cases found

/-- The copy is what is seen when entries can be made where some are seen. -/
theorem Ready.made_eq_seen
    (ready : Ready job source origin)
    (roomy : ∀ names name, job.seen source (names ++ [name]) ≠ none →
      Roomy job.machine.process ((job.seen source names).map job.goal))
    (names rest : List Name) :
    job.made source names rest =
      (job.seen source (names ++ rest)).map job.goal := by
  induction rest generalizing names with
  | nil => simp [Job.made]
  | cons name rest ih =>
      rw [Job.made, ih, List.append_assoc, List.singleton_append]
      split
      · rfl
      · rename_i cramped
        have unseen : job.seen source (names ++ [name]) = none :=
          not_not.mp fun visible => cramped (roomy names name visible)
        have below := ready.seen_below unseen rest
        rw [List.append_assoc, List.singleton_append] at below
        simp [below]

/-- What is made was seen. -/
theorem seen_of_made
    {rest : List Name}
    {node : Node}
    (made : job.made source names rest = some node) :
    (job.seen source (names ++ rest)).map job.goal = some node := by
  induction rest generalizing names with
  | nil => simpa [Job.made] using made
  | cons name rest ih =>
      rw [Job.made] at made
      split at made
      · simpa using ih made
      · cases made

/-- What is made stands in a directory in which it could be made. -/
theorem roomy_of_made
    {rest : List Name}
    (made : job.made source names (rest ++ [name]) ≠ none) :
    Roomy job.machine.process
      ((job.seen source (names ++ rest)).map job.goal) := by
  induction rest generalizing names with
  | nil =>
      rw [List.nil_append, Job.made] at made
      split at made
      · simpa
      · exact absurd rfl made
  | cons first rest ih =>
      rw [List.cons_append, Job.made] at made
      split at made
      · simpa using ih made
      · exact absurd rfl made

/-! ## Trees without links -/

/-- There is no symbolic link below the source. -/
def Unlinked (job : Job) (source : Place) : Prop :=
  ∀ names, Solid job.files (source ++ names)

theorem Leads.literal_of_unlinked
    (unlinked : Unlinked job source)
    (leads : Leads job source names place) :
    place = source ++ names := by
  induction leads with
  | source => simp
  | directory above lists entered found ih => simp [ih]
  | link flag above lists linked located found ih =>
      rw [ih, List.append_assoc] at linked
      exact absurd linked (unlinked _ _)

namespace Ready

variable (ready : Ready job source origin)
variable (unlinked : Unlinked job source)

include ready unlinked

/-- Without links the copier sees the nodes below the source. -/
theorem seen_eq_node (names : List Name) :
    job.seen source names = job.files.node (source ++ names) := by
  induction names using List.reverseRecOn with
  | nil => rw [seen_of_leads ready.toPlaced .source, List.append_nil]
  | append_singleton names name ih =>
      by_cases directory : ∃ perm, job.seen source names = some (.dir perm)
      · obtain ⟨perm, found⟩ := directory
        obtain ⟨place, leads⟩ := ready.leads_of_seen found
        have solid := unlinked (names ++ [name])
        rw [← List.append_assoc] at solid ⊢
        rw [← leads.literal_of_unlinked unlinked] at solid ⊢
        exact ready.seen_entry leads (.inr solid)
      · have unseen : job.seen source (names ++ [name]) = none :=
          not_not.mp fun visible => directory (ready.seen_parent visible)
        rw [unseen]
        by_contra present
        rw [← List.append_assoc] at present
        obtain ⟨perm, found⟩ := ready.wellFormed.closed _ _ (Ne.symm present)
        exact directory ⟨perm, ih.trans found⟩

end Ready

/-- In a tree without links, the paths are those of the table. -/
theorem short_of_unlinked
    (unlinked : Unlinked job source)
    (ends : job.src.length < pathMax ∧ job.dest.length < pathMax)
    (checked : ∀ place ∈ job.files.keys, ∀ _ ∈ job.files.node place,
      source <+: place →
        (descend job.src (place.drop source.length)).length < pathMax ∧
          (descend job.dest (place.drop source.length)).length < pathMax) :
    Short job source where
  ends := ends
  entries := by
    intro names place name leads _ present
    obtain ⟨node, found⟩ := Option.ne_none_iff_exists'.mp present
    rw [leads.literal_of_unlinked unlinked, List.append_assoc] at found
    have lengths := Files.of_keys checked found (List.prefix_append _ _)
    rwa [List.drop_left] at lengths

theorem unlinked_of_keys
    (checked : ∀ place ∈ job.files.keys, ∀ node ∈ job.files.node place,
      isLink node = false) :
    Unlinked job source := by
  intro names text found
  have plain := Files.of_keys checked found
  cases plain

/-! ## Without `-p` -/

/-- No path leads to `origin` where no entry of a directory does. -/
theorem Ready.unmissed
    (ready : Ready job source origin)
    (flag : job.copySymlinks = false)
    (beside : ∀ names place name, Leads job source names place →
      place ++ [name] ≠ origin)
    (unlinked : ∀ names place name text, Leads job source names place →
      job.files.node (place ++ [name]) = some (.link text) →
        stat job.files job.machine.process
          (descend job.src (names ++ [name])) ≠ .error (.missing origin))
    (names : List Name) :
    stat job.files job.machine.process (descend job.src names) ≠
      .error (.missing origin) := by
  intro failed
  induction names using List.reverseRecOn with
  | nil =>
      obtain ⟨perm, found⟩ := ready.directory
      have reported : stat job.files job.machine.process
          (descend job.src []) = .ok (.dir perm) :=
        status_eq_ok.mpr ⟨source, ready.located, found⟩
      rw [reported] at failed
      cases failed
  | append_singleton names name ih =>
      have ends := failed
      rw [descend_concat] at ends
      rcases stat_child_missing (ready.descend_nonempty names) ends with
        earlier | ⟨place, located, entered, ending⟩
      · exact ih earlier
      · have leads : Leads job source names place := by
          obtain ⟨perm, found, _⟩ := enter_eq_ok.mp entered
          obtain ⟨reached, leads⟩ := ready.leads_of_seen
            ((seen_eq_some flag).mpr (status_eq_ok.mpr ⟨_, located, found⟩))
          have again := ready.leads_located leads
          rw [located, Except.ok.injEq] at again
          exact again ▸ leads
        rcases ending with whole | ⟨target, linked⟩
        · exact beside _ _ _ leads whole.symm
        · exact unlinked _ _ _ _ leads linked failed

/-- `dest` lies outside `src`, and no path below `src` leads to its place. -/
theorem AllReadable.apart
    (readable : AllReadable job source)
    (placed : Placed job source origin)
    (outside : ¬ source <+: origin)
    (unlinked : job.copySymlinks = false → ∀ names,
      stat job.files job.machine.process (descend job.src names) ≠
        .error (.missing origin)) :
    Apart job source origin where
  beside := by
    rintro names place name leads _ rfl
    cases flag : job.copySymlinks with
    | true =>
        rw [leads.literal flag, List.append_assoc] at outside
        exact outside (List.prefix_append _ _)
    | false =>
        obtain ⟨perm, found⟩ := placed.leads_directory leads
        have searched := readable names _
          ((seen_of_leads placed leads).trans found)
        have located : locate job.files job.machine.process true
            (descend job.src (names ++ [name])) = .ok (place ++ [name]) := by
          rw [descend_concat]
          exact locate_entry (placed.leads_located leads)
            (enter_eq_ok.mpr ⟨perm, found, searched.2⟩)
            (.inr (by simp [Solid, placed.absent]))
        refine unlinked flag (names ++ [name]) ?_
        simp only [stat, status, located, placed.absent]
  unlinked flag _ _ _ _ _ _ := unlinked flag _

/-- In a tree without links nothing leads to a place outside. -/
theorem Ready.apart_of_unlinked
    (ready : Ready job source origin)
    (unlinked : Unlinked job source)
    (outside : ¬ source <+: origin) :
    Apart job source origin := by
  have beside : ∀ names place name, Leads job source names place →
      place ++ [name] ≠ origin := by
    rintro names place name leads rfl
    rw [leads.literal_of_unlinked unlinked, List.append_assoc] at outside
    exact outside (List.prefix_append _ _)
  refine ⟨fun names place name leads _ => beside names place name leads,
    fun flag names place name leads _ _ => ?_⟩
  refine ready.unmissed flag beside ?_ (names ++ [name])
  intro names place name text leads linked
  rw [leads.literal_of_unlinked unlinked, List.append_assoc] at linked
  exact absurd linked (unlinked _ _)

/--
The call ends with the tree seen below `src` at `dest`, and nothing else, given
levels that suffice; `PATH_MAX` levels do.
-/
def TreeCopied (job : Job) (source origin : Place) : Prop :=
  Suffices job source pathMax ∧
    ∃ after,
      (∀ depth, Suffices job source depth → job.run depth = some after) ∧
        SameOutside origin job.files after.files ∧
          ∀ names, after.files.node (origin ++ names) =
            (job.seen source names).map job.goal

theorem treeCopied_of_roomy
    (ready : Ready job source origin)
    (apart : Apart job source origin)
    (roomy : ∀ names name, job.seen source (names ++ [name]) ≠ none →
      Roomy job.machine.process ((job.seen source names).map job.goal)) :
    TreeCopied job source origin := by
  obtain ⟨after, returned, same⟩ := run_same ready.toPlaced apart
  have whole := ready.deep
  refine ⟨whole, after, returned, same, fun names => ?_⟩
  rw [run_made ready apart whole (returned _ whole),
    ready.made_eq_seen roomy, List.nil_append]

/-- A umask that leaves the owner bits leaves new directories roomy. -/
theorem roomy_default
    {process : Process}
    (umask : process.umask &&& 0o700#9 = 0) :
    Roomy process (some (.dir (process.masked 0o755#9))) := by
  have clear : ∀ bit, bit = 6 ∨ bit = 7 →
      process.umask.getLsbD bit = false := by
    intro bit which
    have zero := congrArg (fun word => word.getLsbD bit) umask
    rcases which with rfl | rfl <;> simpa using zero
  constructor
  · simp only [Process.may, Process.masked, Access.bit, BitVec.getLsbD_and,
      BitVec.getLsbD_not, clear 7 (.inr rfl)]
    simp
  · simp only [Process.may, Process.masked, Access.bit, BitVec.getLsbD_and,
      BitVec.getLsbD_not, clear 6 (.inl rfl)]
    simp

/--
Without `-p`, with a umask that leaves the owner bits, `copy_directory` makes at
`dest` exactly the tree seen below `src`, when `dest` is outside `src` and,
without `-l`, no path below `src` leads to the place where `dest` is missing.
-/
theorem copy_exact
    (placed : Placed job source origin)
    (readable : AllReadable job source)
    (room : job.Room origin)
    (writes : job.Writes)
    (outside : ¬ source <+: origin)
    (unlinked : job.copySymlinks = false → ∀ names,
      stat job.files job.machine.process (descend job.src names) ≠
        .error (.missing origin))
    (plain : job.copyPermissions = false)
    (umask : job.machine.process.umask &&& 0o700#9 = 0) :
    TreeCopied job source origin := by
  have ready := readable.ready placed room writes
  refine treeCopied_of_roomy ready
    (readable.apart placed outside unlinked) ?_
  intro names name visible
  obtain ⟨perm, directory⟩ := ready.seen_parent visible
  rw [directory, Option.map_some, Job.goal, plain]
  exact roomy_default umask

theorem readable_of_root
    {process : Process}
    (root : process.root = true)
    (node : Node) :
    Readable process node := by
  cases node <;> simp [Readable, Process.may, root]

/--
The calls that the copier makes, each with its names and the directory they
lead to, are all in a list.
-/
def Covers
    (job : Job)
    (source : Place)
    (calls : List (List Name × Place)) : Prop :=
  ([], source) ∈ calls ∧
    ∀ call ∈ calls, ∀ name ∈ entries job.files call.2,
      ∀ node ∈ job.files.node (call.2 ++ [name]),
        isDir job.machine job.copySymlinks
            (descend job.src (call.1 ++ [name])) node job.files = true →
          ∀ reached ∈ (locate job.files job.machine.process true
              (descend job.src (call.1 ++ [name]))).toOption,
            (call.1 ++ [name], reached) ∈ calls

instance (job : Job) (source : Place) (calls : List (List Name × Place)) :
    Decidable (Covers job source calls) :=
  inferInstanceAs (Decidable (_ ∧ ∀ call ∈ _, ∀ name ∈ _, ∀ node ∈ _,
    _ → ∀ reached ∈ _, _ ∈ _))

theorem Leads.covered
    {calls : List (List Name × Place)}
    (covers : Covers job source calls)
    (start : locate job.files job.machine.process true job.src = .ok source)
    (leads : Leads job source names place) :
    (names, place) ∈ calls := by
  have located := leads.located start
  induction leads with
  | source => exact covers.1
  | directory above lists entered found ih =>
      refine covers.2 _ (ih (above.located start)) _
        (mem_entries.mpr (by simp [found])) _ found
        (by simp [isDir, isDirectory]) _ ?_
      rw [located]
      rfl
  | link flag above lists linked _ found ih =>
      refine covers.2 _ (ih (above.located start)) _
        (mem_entries.mpr (by simp [linked])) _ linked ?_ _ ?_
      · have reported := status_eq_ok.mpr ⟨_, located, found⟩
        simp only [isDir, isDirectory, isLink, flag, stat, reported]
        rfl
      · rw [located]
        rfl

theorem short_of_covers
    {calls : List (List Name × Place)}
    (covers : Covers job source calls)
    (start : locate job.files job.machine.process true job.src = .ok source)
    (ends : job.src.length < pathMax ∧ job.dest.length < pathMax)
    (checked : ∀ call ∈ calls, ∀ name ∈ entries job.files call.2,
      (descend job.src (call.1 ++ [name])).length < pathMax ∧
        (descend job.dest (call.1 ++ [name])).length < pathMax) :
    Short job source where
  ends := ends
  entries names place name leads _ present :=
    checked (names, place) (leads.covered covers start) name
      (mem_entries.mpr present)

def srcName : Name := ⟨['s'], by decide⟩

def destName : Name := ⟨['d'], by decide⟩

def firstName : Name := ⟨['a'], by decide⟩

def secondName : Name := ⟨['b'], by decide⟩

def ownedBy (mode : BitVec 9) : Perm where
  mode := mode
  cls := .owner

/-- A root with one directory in it. -/
def smallRoot (mode : BitVec 9) : Files :=
  (Files.put ∅ [] (.dir (ownedBy 0o755#9))).put [srcName]
    (.dir (ownedBy mode))

/-- A copy of that directory, by a process that reads one byte at a time. -/
def smallJob
    (root copySymlinks copyPermissions : Bool)
    (umask : BitVec 9)
    (files : Files) : Job where
  machine :=
    { process := { root, umask, cwd := [], maxLinks := 40 }
      readdirOrder := fun _ names => names
      readdirOrder_perm := fun _ _ => .refl _
      readAmount := fun _ _ => 1
      writeAmount := fun _ _ count => count }
  copySymlinks
  copyPermissions
  src := ['/', 's']
  dest := ['/', 'd']
  files

/-- A directory with a file, and with a directory with a file. -/
def smallTree : Files :=
  (((smallRoot 0o755#9).put [srcName, firstName]
    (.file (ownedBy 0o644#9) [1, 2, 3])).put
    [srcName, secondName] (.dir (ownedBy 0o755#9))).put
    [srcName, secondName, firstName] (.file (ownedBy 0o600#9) [])

theorem wellFormed_smallRoot (mode : BitVec 9) :
    WellFormed (smallRoot mode) :=
  (wellFormed_root _).put [] srcName _ (Files.node_put _ _ _) rfl (by simp)

theorem wellFormed_smallTree : WellFormed smallTree :=
  (((wellFormed_smallRoot _).put [srcName] firstName _
    (Files.node_put _ _ _) (rfl) (by simp)).put
    [srcName] secondName (ownedBy 0o755#9) (rfl)
    (rfl) (by simp)).put
    [srcName, secondName] firstName _ (Files.node_put _ _ _)
    (rfl) (by simp)

def thirdName : Name := ⟨['c'], by decide⟩

def fourthName : Name := ⟨['e'], by decide⟩

def fifthName : Name := ⟨['f'], by decide⟩

/--
The same directory with a link to its file, a link to the directory in it, and a
dangling link: what it leads to is a file, and the slash asks for a directory.
-/
def webTree : Files :=
  ((smallTree.put [srcName, thirdName] (.link ['a'])).put
    [srcName, fourthName] (.link ['b', '/'])).put
    [srcName, fifthName] (.link ['a', '/'])

theorem wellFormed_webTree : WellFormed webTree :=
  ((wellFormed_smallTree.put [srcName] thirdName (ownedBy 0o755#9)
    (rfl) (rfl) (by simp [pathMax])).put
    [srcName] fourthName (ownedBy 0o755#9) (rfl)
    (rfl) (by simp [pathMax])).put
    [srcName] fifthName (ownedBy 0o755#9) (rfl)
    (rfl) (by simp [pathMax])

/-- The calls for the directory, for the one in it and for the link to that. -/
def webCalls : List (List Name × Place) :=
  [([], [srcName]), ([secondName], [srcName, secondName]),
    ([fourthName], [srcName, secondName])]

/-- A copy of it by the superuser, who follows the links. -/
def webJob : Job :=
  smallJob true false false 0o022#9 webTree

theorem located_webJob :
    locate webJob.files webJob.machine.process true webJob.src =
      .ok [srcName] := by
  decide

theorem covers_webJob : Covers webJob [srcName] webCalls := by
  decide

theorem placed_webJob : Placed webJob [srcName] [destName] where
  wellFormed := wellFormed_webTree
  home := ⟨ownedBy 0o755#9, rfl⟩
  located := located_webJob
  directory := ⟨ownedBy 0o755#9, rfl⟩
  target := rfl
  absent := rfl
  short := short_of_covers covers_webJob located_webJob (by decide)
    (by decide)

theorem readable_webJob : AllReadable webJob [srcName] :=
  fun _ node _ => readable_of_root rfl node

theorem room_webJob : webJob.Room [destName] :=
  ⟨ownedBy 0o755#9, rfl, by decide⟩

theorem unmissed_webJob (names : List Name) :
    stat webJob.files webJob.machine.process (descend webJob.src names) ≠
      .error (.missing [destName]) := by
  have ready := readable_webJob.ready placed_webJob room_webJob fun _ _ _ => rfl
  refine ready.unmissed rfl ?_ ?_ names
  · intro names place name leads whole
    have known := leads.covered covers_webJob located_webJob
    have checked : ∀ call ∈ webCalls,
        ([destName] : Place).dropLast ≠ call.2 := by
      decide
    exact checked _ known (by rw [← whole, List.dropLast_concat])
  · intro names place name text leads linked
    have known := leads.covered covers_webJob located_webJob
    have checked : ∀ call ∈ webCalls, ∀ name ∈ entries webTree call.2,
        stat webJob.files webJob.machine.process
          (descend webJob.src (call.1 ++ [name])) ≠
            .error (.missing [destName]) := by
      decide
    exact checked _ known name (mem_entries.mpr (by
      intro absent
      exact absurd (absent.symm.trans linked) (by simp)))

theorem copy_exact_webJob : TreeCopied webJob [srcName] [destName] :=
  copy_exact placed_webJob readable_webJob room_webJob (fun _ _ _ => rfl)
    (by decide) (fun _ => unmissed_webJob) rfl (by decide)

/-- A directory with a file, and with a link to where its copy will be. -/
def linkedTree : Files :=
  ((smallRoot 0o755#9).put [srcName, secondName]
    (.link ['/', 'd', '/', 'a'])).put
    [srcName, firstName] (.file (ownedBy 0o644#9) [1, 2, 3])

theorem wellFormed_linkedTree : WellFormed linkedTree :=
  ((wellFormed_smallRoot _).put [srcName] secondName _
    (Files.node_put _ _ _) (rfl) (by simp [pathMax])).put
    [srcName] firstName (ownedBy 0o755#9) (rfl)
    (rfl) (by simp)

/--
Without `-l` a link to the missing place of a copy is dangling before the call,
and is copied when that copy has been made before.
-/
theorem dangling_link_copied :
    ¬ ∀ (job : Job) (source origin : Place), Placed job source origin →
      AllReadable job source → job.Room origin → job.Writes →
        ¬ source <+: origin → job.copyPermissions = false →
          job.machine.process.umask &&& 0o700#9 = 0 →
            TreeCopied job source origin := by
  intro law
  have start : locate linkedTree
      (smallJob true false false 0o022#9 linkedTree).machine.process true
      ['/', 's'] = .ok [srcName] := by
    decide
  have covers : Covers (smallJob true false false 0o022#9 linkedTree) [srcName]
      [([], [srcName])] := by
    decide
  have placed : Placed (smallJob true false false 0o022#9 linkedTree) [srcName]
      [destName] :=
    { wellFormed := wellFormed_linkedTree
      home := ⟨ownedBy 0o755#9, rfl⟩
      located := start
      directory := ⟨ownedBy 0o755#9, rfl⟩
      target := rfl
      absent := rfl
      short := short_of_covers covers start (by decide) (by decide) }
  obtain ⟨enough, after, returned, _, copied⟩ :=
    law _ _ _ placed (fun _ node _ => readable_of_root rfl node)
      ⟨ownedBy 0o755#9, rfl, by decide⟩ (fun _ _ _ => rfl) (by decide) rfl
      (by decide)
  have unseen : (smallJob true false false 0o022#9 linkedTree).seen [srcName]
      [secondName] = none := by
    decide
  have made : ((smallJob true false false 0o022#9 linkedTree).run
      pathMax).map (fun state => state.files.node [destName, secondName]) =
      some (some (.file (ownedBy 0o644#9) [1, 2, 3])) := by
    decide
  rw [returned _ enough, Option.map_some, Option.some.injEq] at made
  have nothing := copied [secondName]
  rw [unseen, List.singleton_append, made] at nothing
  cases nothing

/-! ## With `-p` -/

/--
The call ends with the same names, contents and modes at `dest`, given levels
that suffice; `PATH_MAX` levels do.
-/
def ModesCopied (job : Job) (source origin : Place) : Prop :=
  Suffices job source pathMax ∧
    ∃ after,
      (∀ depth, Suffices job source depth → job.run depth = some after) ∧
        ∀ names, after.files.node (origin ++ names) =
          job.files.node (source ++ names)

/-- The process owns everything below the source and is not the superuser. -/
structure Owned (job : Job) (source : Place) : Prop where
  ordinary : job.machine.process.root = false
  directories :
    ∀ names perm, job.files.node (source ++ names) = some (.dir perm) →
      perm.cls = .owner
  regular :
    ∀ names perm content,
      job.files.node (source ++ names) = some (.file perm content) →
        perm.cls = .owner

/--
The umask takes no bit from the mode of a directory, and a directory with
entries is writable by its owner.
-/
def ModesKept (job : Job) (source : Place) : Prop :=
  ∀ names perm, job.files.node (source ++ names) = some (.dir perm) →
    perm.mode &&& job.machine.process.umask = 0 ∧
      ((∃ name, job.files.node (source ++ names ++ [name]) ≠ none) →
        perm.mode.getLsbD 7 = true)

/-- No path is cut, and every `write` succeeds in full. -/
structure Whole (job : Job) (source : Place) : Prop where
  short : Short job source
  writes : job.Writes

/-- A whole copy for which there is room, in which the modes are kept. -/
structure Preserving (job : Job) (source origin : Place) : Prop extends
    Whole job source where
  room : job.Room origin
  kept : ModesKept job source

theorem masked_eq_iff (process : Process) (mode : BitVec 9) :
    (process.masked mode).mode = mode ↔ mode &&& process.umask = 0 := by
  simp only [Process.masked]
  constructor
  · intro kept
    rw [← kept, BitVec.and_assoc]
    simp
  · intro clear
    ext bit inside
    have zero := congrArg (fun word => word[bit]) clear
    simp only [BitVec.getElem_and, BitVec.getElem_not] at zero ⊢
    cases one : mode[bit] with
    | false => simp
    | true => simpa [one] using zero

section Modes

variable (ready : Ready job source origin)
variable (apart : Apart job source origin)
variable (unlinked : Unlinked job source)
variable (owned : Owned job source)
variable (preserve : job.copyPermissions = true)

include ready apart unlinked owned preserve

/-- The condition enough: every node is copied as it is. -/
theorem modesCopied_of_kept
    (readable : AllReadable job source)
    (kept : ModesKept job source) :
    ModesCopied job source origin := by
  have copied : TreeCopied job source origin := by
    refine treeCopied_of_roomy ready apart ?_
    intro names name visible
    obtain ⟨perm, directory⟩ := ready.seen_parent visible
    have readable := readable _ _ directory
    rw [ready.seen_eq_node unlinked] at directory visible
    rw [ready.seen_eq_node unlinked, directory]
    obtain ⟨clear, writable⟩ := kept names perm directory
    rw [← List.append_assoc] at visible
    have same := (masked_eq_iff job.machine.process perm.mode).mpr clear
    have cls := owned.directories names perm directory
    simp only [Readable, Process.may, cls, owned.ordinary, Bool.false_or,
      Access.bit] at readable
    simp only [Option.map_some, Job.goal, preserve, if_true, Roomy,
      Process.may, owned.ordinary, Bool.false_or, same]
    exact ⟨writable ⟨name, visible⟩, readable.2⟩
  obtain ⟨enough, after, returned, _, equal⟩ := copied
  refine ⟨enough, after, returned, fun names => ?_⟩
  rw [equal, ready.seen_eq_node unlinked]
  rcases found : job.files.node (source ++ names) with _ | node
  · rfl
  · cases node with
    | dir perm =>
        have same := (masked_eq_iff job.machine.process perm.mode).mpr
          (kept names perm found).1
        have cls := owned.directories names perm found
        simp only [Option.map_some, Job.goal, preserve, if_true]
        rw [show job.machine.process.masked perm.mode = perm from by
          cases perm
          simp_all [Process.masked]]
    | file perm content =>
        have cls := owned.regular names perm content found
        simp only [Option.map_some, Job.goal, preserve, if_true]
        rw [← cls]
    | link text => exact absurd found (unlinked names text)

/-- The condition is needed: `mkdir` masks, and comes before the entries. -/
theorem kept_of_modesCopied
    (copied : ModesCopied job source origin) :
    ModesKept job source := by
  obtain ⟨enough, after, returned, equal⟩ := copied
  have made : ∀ names, job.made source [] names =
      job.files.node (source ++ names) := by
    intro names
    rw [← equal]
    exact (run_made ready apart enough (returned _ enough) names).symm
  intro names perm found
  have visible := (ready.seen_eq_node unlinked names).trans found
  have goal := seen_of_made ((made names).trans found)
  rw [List.nil_append, visible, Option.map_some, Option.some.injEq, Job.goal,
    Node.dir.injEq, if_pos preserve] at goal
  have same : (job.machine.process.masked perm.mode).mode = perm.mode := by
    rw [goal]
  refine ⟨(masked_eq_iff _ _).mp same, ?_⟩
  rintro ⟨name, present⟩
  rw [List.append_assoc, ← made] at present
  have roomy := roomy_of_made present
  rw [List.nil_append, visible, Option.map_some, Job.goal,
    if_pos preserve] at roomy
  have writable := roomy.1
  rwa [Process.may, owned.ordinary, Bool.false_or, same] at writable

end Modes

/-- Where nothing can be made at `dest`, nothing is there in the end. -/
theorem room_of_modesCopied
    (aimed : Aimed job source origin)
    (copied : ModesCopied job source origin) :
    job.Room origin := by
  obtain ⟨enough, after, returned, equal⟩ := copied
  by_contra cramped
  obtain ⟨perm, found⟩ := aimed.directory
  have returns := returned _ enough
  rw [show pathMax = 4095 + 1 from rfl, run_of_unmakeable
    (status_eq_ok.mpr ⟨source, aimed.located, found⟩)] at returns
  · obtain rfl := Option.some.inj returns
    have nothing := equal []
    rw [List.append_nil, List.append_nil, aimed.absent, found] at nothing
    cases nothing
  · rintro other ⟨target, _, room⟩
    obtain rfl : other = origin :=
      Except.ok.inj (target.symm.trans aimed.target)
    exact cramped room

/--
With `-p`, a copy of a readable tree of directories and files that an ordinary
user owns keeps all names, contents and modes when no path is cut and no write
fails, `dest` can be made, the umask takes no bit from the mode of a directory,
and every directory with entries is writable by its owner.  Where no path is cut
and no write fails, it does so only then.
-/
theorem modesCopied_iff
    (aimed : Aimed job source origin)
    (readable : AllReadable job source)
    (outside : ¬ source <+: origin)
    (unlinked : Unlinked job source)
    (owned : Owned job source)
    (preserve : job.copyPermissions = true) :
    (Preserving job source origin → ModesCopied job source origin) ∧
      (Whole job source → ModesCopied job source origin →
        Preserving job source origin) := by
  constructor
  · intro preserving
    have ready := readable.ready ⟨aimed, preserving.short⟩ preserving.room
      preserving.writes
    exact modesCopied_of_kept ready
      (ready.apart_of_unlinked unlinked outside) unlinked owned preserve
      readable preserving.kept
  · intro whole copied
    have room := room_of_modesCopied aimed copied
    have ready := readable.ready ⟨aimed, whole.short⟩ room whole.writes
    exact
      { whole with
        room := room
        kept := kept_of_modesCopied ready
          (ready.apart_of_unlinked unlinked outside) unlinked owned preserve
          copied }

instance (process : Process) (node : Node) :
    Decidable (Readable process node) :=
  match node with
  | .dir _ => inferInstanceAs (Decidable (_ ∧ _))
  | .file _ _ => inferInstanceAs (Decidable (_ = _))
  | .link _ => inferInstanceAs (Decidable True)

theorem readable_of_keys
    (flag : job.copySymlinks = true)
    (checked : ∀ place ∈ job.files.keys, ∀ node ∈ job.files.node place,
      Readable job.machine.process node) :
    AllReadable job source := by
  intro names node visible
  rw [Job.seen, if_pos flag] at visible
  exact Files.of_keys checked visible

/-- The class of the process for a node. -/
def nodeClass : Node → UserClass
  | .dir perm => perm.cls
  | .file perm _ => perm.cls
  | .link _ => .owner

theorem owned_of_keys
    (ordinary : job.machine.process.root = false)
    (checked : ∀ place ∈ job.files.keys, ∀ node ∈ job.files.node place,
      nodeClass node = .owner) :
    Owned job source where
  ordinary := ordinary
  directories _ _ found := Files.of_keys checked found
  regular _ _ _ found := Files.of_keys checked found

theorem modesKept_of_keys
    (checked : ∀ place ∈ job.files.keys, ∀ node ∈ job.files.node place,
      isDirectory node = true →
        mode node &&& job.machine.process.umask = 0 ∧
          (mode node).getLsbD 7 = true) :
    ModesKept job source := by
  intro names perm found
  obtain ⟨clear, writable⟩ := Files.of_keys checked found rfl
  exact ⟨clear, fun _ => writable⟩

theorem aimed_smallJob
    {umask : BitVec 9}
    {files : Files}
    (wellFormed : WellFormed files)
    (home : ∃ perm, files.node [] = some (.dir perm))
    (located : locate files
      (smallJob false true true umask files).machine.process true ['/', 's'] =
        .ok [srcName])
    (directory : ∃ perm, files.node [srcName] = some (.dir perm))
    (target : locateNew files
      (smallJob false true true umask files).machine.process ['/', 'd'] =
        .ok [destName])
    (absent : files.node [destName] = none) :
    Aimed (smallJob false true true umask files) [srcName] [destName] :=
  { wellFormed, home, located, directory, target, absent }

/-- The modes of the directories of the tree pass through the umask. -/
theorem modesCopied_smallTree :
    ModesCopied (smallJob false true true 0o022#9 smallTree) [srcName]
      [destName] := by
  have unlinked : Unlinked (smallJob false true true 0o022#9 smallTree)
      [srcName] :=
    unlinked_of_keys (by decide)
  have aimed : Aimed (smallJob false true true 0o022#9 smallTree) [srcName]
      [destName] :=
    aimed_smallJob wellFormed_smallTree ⟨ownedBy 0o755#9, by decide⟩
      (by decide) ⟨ownedBy 0o755#9, by decide⟩
      (by decide) (by decide)
  refine (modesCopied_iff aimed (readable_of_keys rfl (by decide))
    (by decide) unlinked (owned_of_keys rfl (by decide)) rfl).1 ?_
  exact
    { short := short_of_unlinked unlinked (by decide) (by decide)
      writes := fun _ _ _ => rfl
      room := ⟨ownedBy 0o755#9, by decide⟩
      kept := modesKept_of_keys (by decide) }

/-- The umask takes a bit from the mode of a directory. -/
theorem mkdir_masks_mode :
    ¬ ∀ (job : Job) (source origin : Place), Aimed job source origin →
      AllReadable job source → Whole job source → job.Room origin →
        ¬ source <+: origin → Unlinked job source → Owned job source →
          job.copyPermissions = true → ModesCopied job source origin := by
  intro law
  have unlinked : Unlinked
      (smallJob false true true 0o022#9 (smallRoot 0o775#9)) [srcName] :=
    unlinked_of_keys (by decide)
  have aimed : Aimed (smallJob false true true 0o022#9 (smallRoot 0o775#9))
      [srcName] [destName] :=
    aimed_smallJob (wellFormed_smallRoot _)
      ⟨ownedBy 0o755#9, by decide⟩
      (by decide) ⟨ownedBy 0o775#9, by decide⟩
      (by decide) (by decide)
  have whole : Whole (smallJob false true true 0o022#9 (smallRoot 0o775#9))
      [srcName] :=
    { short := short_of_unlinked unlinked (by decide) (by decide)
      writes := fun _ _ _ => rfl }
  obtain ⟨enough, after, returned, copied⟩ := law _ _ _ aimed
    (readable_of_keys rfl (by decide)) whole
    ⟨ownedBy 0o755#9, by decide⟩ (by decide) unlinked
    (owned_of_keys rfl (by decide)) rfl
  have made : ((smallJob false true true 0o022#9 (smallRoot 0o775#9)).run
      pathMax).map (fun state => state.files.node [destName]) =
      some (some (.dir (ownedBy 0o755#9))) := by
    decide
  rw [returned _ enough, Option.map_some, Option.some.injEq] at made
  have same := copied []
  rw [List.append_nil, List.append_nil, made] at same
  revert same
  decide

end OSCourse.CopyTree
