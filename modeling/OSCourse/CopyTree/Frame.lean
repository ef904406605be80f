import OSCourse.CopyTree.Source

/-!
# What a copy leaves alone

A call of `copy_directory` along some names changes nothing but the place it
makes for `dest` and what is below it, whatever fails on the way.  `Stage` is
the state of its loop: `dest` leads to the new directory, and nothing stands
there yet under the names to come.

The calls nest no deeper than the paths of the directories below `src` are long.
-/

namespace OSCourse.CopyTree

open OSCourse.Library.FileTree

variable {job : Job} {source origin place : Place} {files later : Files}
variable {names : List Name} {name : Name} {todo : List Text}

/-- The loop of the call along `names`, with the entries `todo` to come. -/
structure Stage
    (job : Job)
    (origin : Place)
    (names : List Name)
    (todo : List Text)
    (files : Files) : Prop where
  under : Under job origin files
  located :
    locate files job.machine.process true (descend job.dest names) =
      .ok (origin ++ names)
  opened : ∃ perm, files.node (origin ++ names) = some (.dir perm)
  free :
    ∀ name : Name, name.val ∈ todo → ∀ rest,
      files.node (origin ++ names ++ name :: rest) = none

namespace Stage

theorem skip
    {text : Text}
    (stage : Stage job origin names (text :: todo) files) :
    Stage job origin names todo files where
  under := stage.under
  located := stage.located
  opened := stage.opened
  free name member := stage.free name (.tail _ member)

theorem free_here
    (stage : Stage job origin names (name.val :: todo) files) :
    files.node (origin ++ names ++ [name]) = none :=
  stage.free name (.head _) []

/-- The path of `dest` is not disturbed by what is made of one entry. -/
theorem located_later
    (placed : Placed job source origin)
    (stage : Stage job origin names (name.val :: todo) files)
    (same : SameOutside (origin ++ names ++ [name]) files later) :
    locate later job.machine.process true (descend job.dest names) =
      .ok (origin ++ names) := by
  refine (locate_later stage.free_here same ?_ stage.located (by simp)).1
  intro below
  rw [List.append_assoc] at below
  exact placed.home_not_below ((List.prefix_append _ _).trans below)

theorem next
    (placed : Placed job source origin)
    (stage : Stage job origin names (name.val :: todo) files)
    (fresh : name.val ∉ todo)
    (same : SameOutside (origin ++ names ++ [name]) files later) :
    Stage job origin names todo later where
  under :=
    { same := stage.under.same.trans
        (same.widen (by rw [List.append_assoc]; exact List.prefix_append _ _))
      solid := by
        have short : ¬ origin ++ names ++ [name] <+: origin :=
          fun below => not_below_entry (origin ++ names) name
            (below.trans (List.prefix_append _ _))
        simpa [Solid, same origin short] using stage.under.solid }
  located := stage.located_later placed same
  opened := by
    obtain ⟨perm, found⟩ := stage.opened
    exact ⟨perm, (same _ (not_below_entry _ _)).trans found⟩
  free := by
    intro other member rest
    rw [same]
    · exact stage.free other (.tail _ member) rest
    · rintro ⟨more, equal⟩
      rw [List.append_assoc, List.append_cancel_left_eq] at equal
      simp only [List.singleton_append, List.cons.injEq] at equal
      exact fresh (equal.1 ▸ member)

/-- The path of an entry leads to its own place in the new directory. -/
theorem arrives
    (placed : Placed job source origin)
    (stage : Stage job origin names (name.val :: todo) files)
    (same : SameOutside (origin ++ names ++ [name]) files later)
    (solid : Solid later (origin ++ names ++ [name]))
    {follow : Bool}
    {reached : Place}
    (located : locate later job.machine.process follow
      (child (descend job.dest names) name) = .ok reached) :
    reached = origin ++ names ++ [name] :=
  locate_child_unique (stage.located_later placed same) solid located

theorem solid_here
    (stage : Stage job origin names (name.val :: todo) files) :
    Solid files (origin ++ names ++ [name]) := by
  simp only [Solid, stage.free_here, ne_eq, reduceCtorEq, not_false_eq_true,
    implies_true]

end Stage

/-! ## `copy_file` -/

theorem transfer_same
    (machine : Machine)
    (src dest : Text)
    (reading target : Place)
    (turns offset : Nat)
    (files : Files)
    (solid : Solid files target) :
    SameElsewhere target files
        (transfer machine src dest reading target turns offset files).1 ∧
      Solid (transfer machine src dest reading target turns offset files).1
        target := by
  induction turns generalizing offset files with
  | zero => exact ⟨fun _ _ => rfl, solid⟩
  | succ turns ih =>
      unfold transfer
      split
      · exact ⟨fun _ _ => rfl, solid⟩
      · exact ⟨fun _ _ => rfl, solid⟩
      · rename_i byte bytes _
        extract_lets data taken written
        have kept : SameElsewhere target files written ∧
            Solid written target := by
          rcases writeAt_cases files target offset (data.take taken) with
            same | ⟨perm, content, changed⟩
          · simp only [written, same]
            exact ⟨fun _ _ => rfl, solid⟩
          · simp only [written, changed]
            exact ⟨sameElsewhere_put _ _ _, by simp [Solid]⟩
        split
        · exact kept
        · obtain ⟨same, still⟩ := ih (offset + data.length) written kept.2
          exact ⟨kept.1.trans same, still⟩

section CopyFile

variable {state : Copying}
variable (placed : Placed job source origin)
variable (stage : Stage job origin names (name.val :: todo) state.files)
variable (src : Text)

include placed stage

theorem copyLink_same :
    SameElsewhere (origin ++ names ++ [name]) state.files
      (copyLink job.machine src (child (descend job.dest names) name)
        state).files := by
  unfold copyLink
  split
  · exact fun _ _ => rfl
  · rename_i linkTarget read
    split
    · exact fun _ _ => rfl
    · rename_i made linked
      unfold symlink at linked
      split at linked
      · cases linked
      · obtain ⟨reached, perm, located, _, _, _, rfl⟩ :=
          makeEntry_eq_ok.mp linked
        rw [stage.arrives placed (fun _ _ => rfl) stage.solid_here located]
        exact sameElsewhere_put _ _ _

omit stage in
theorem copyMode_same
    {state later : Copying}
    (stage : Stage job origin names (name.val :: todo) state.files)
    (same : SameElsewhere (origin ++ names ++ [name]) state.files later.files)
    (solid : Solid later.files (origin ++ names ++ [name])) :
    SameElsewhere (origin ++ names ++ [name]) state.files
      (copyMode job.machine src (child (descend job.dest names) name)
        later).files := by
  unfold copyMode
  split
  · exact same
  · split
    · exact same
    · rename_i changed
      obtain ⟨reached, node, located, rfl⟩ := chmod_ok changed
      rw [stage.arrives placed same.sameOutside solid located]
      exact same.trans (sameElsewhere_put _ _ _)

theorem copyContent_same (copyPermissions : Bool) :
    SameElsewhere (origin ++ names ++ [name]) state.files
      (copyContent job.machine src (child (descend job.dest names) name)
        copyPermissions state).files := by
  unfold copyContent
  split
  · exact fun _ _ => rfl
  · rename_i reading _
    split
    · exact fun _ _ => rfl
    · rename_i target made opened
      obtain ⟨located, ⟨perm, rfl⟩, _⟩ := openWrite_ok opened
      obtain rfl :=
        stage.arrives placed (fun _ _ => rfl) stage.solid_here located
      have moved := transfer_same job.machine src
        (child (descend job.dest names) name) reading
        (origin ++ names ++ [name])
        (turnsFor (state.files.put (origin ++ names ++ [name])
          (.file perm [])) reading) 0
        (state.files.put (origin ++ names ++ [name]) (.file perm []))
        (by simp [Solid])
      generalize transfer job.machine src _ reading _ _ 0 _ = outcome at moved ⊢
      obtain ⟨after, ending⟩ := outcome
      have same := (sameElsewhere_put state.files
        (origin ++ names ++ [name]) (.file perm [])).trans moved.1
      cases ending with
      | writeFailed => exact same
      | readFailed =>
          dsimp only
          split
          · exact copyMode_same placed src stage same moved.2
          · exact same
      | finished =>
          dsimp only
          split
          · exact copyMode_same placed src stage same moved.2
          · exact same

/-- `copy_file` changes nothing but the place of the copy. -/
theorem copyFile_same (copySymlinks copyPermissions : Bool) :
    SameElsewhere (origin ++ names ++ [name]) state.files
      (copyFile job.machine copySymlinks copyPermissions src
        (child (descend job.dest names) name) state).files := by
  unfold copyFile
  split
  · exact fun _ _ => rfl
  · split
    · exact copyLink_same placed stage src
    · exact copyContent_same placed stage src copyPermissions

end CopyFile

/-! ## `copy_directory` -/

/-- What a call along `names` finds: nothing where its `dest` leads. -/
structure Landing
    (job : Job)
    (origin : Place)
    (names : List Name)
    (files : Files) : Prop where
  under : Under job origin files
  arrives :
    ∀ reached, locateNew files job.machine.process
        (descend job.dest names) = .ok reached → reached = origin ++ names
  free : ∀ rest, files.node (origin ++ names ++ rest) = none

theorem Placed.landing (placed : Placed job source origin) :
    Landing job origin [] job.files where
  under := placed.under
  arrives reached located := by
    rw [descend_nil, placed.target, Except.ok.injEq] at located
    simp [located]
  free rest := by simpa using placed.below rest

theorem Stage.landing
    (placed : Placed job source origin)
    (stage : Stage job origin names (name.val :: todo) files) :
    Landing job origin (names ++ [name]) files where
  under := stage.under
  arrives reached located := by
    rw [descend_concat, locateNew_child] at located
    rw [← List.append_assoc]
    exact stage.arrives placed (fun _ _ => rfl) stage.solid_here located
  free rest := by
    simpa using stage.free name (.head _) rest

/-- `mkdir` makes the stage for the loop. -/
theorem Landing.stage
    (placed : Placed job source origin)
    (landing : Landing job origin names files)
    {mode : BitVec 9}
    (made : mkdir files job.machine.process (descend job.dest names) mode =
      .ok later)
    (todo : List Text) :
    Stage job origin names todo later ∧
      SameOutside (origin ++ names) files later ∧
      later.node (origin ++ names) =
        some (.dir (job.machine.process.masked mode)) := by
  obtain ⟨reached, perm, located, vacant, _, _, rfl⟩ := makeEntry_eq_ok.mp made
  obtain rfl := landing.arrives reached located
  have same := (sameElsewhere_put files (origin ++ names)
    (.dir (job.machine.process.masked mode))).sameOutside
  have here := files.node_put (origin ++ names)
    (.dir (job.machine.process.masked mode))
  have home : ¬ origin ++ names <+: job.machine.process.cwd :=
    fun below => placed.home_not_below ((List.prefix_append _ _).trans below)
  refine ⟨?_, same, here⟩
  constructor
  · constructor
    · exact landing.under.same.trans (same.widen (List.prefix_append _ _))
    · by_cases top : origin = origin ++ names
      · rw [← top] at here ⊢
        simp [Solid, here]
      · simpa only [Solid, files.node_put_of_ne top] using landing.under.solid
  · exact locate_made vacant same home located here
  · exact ⟨_, here⟩
  · intro name _ rest
    rw [files.node_put_of_ne (by simp)]
    exact landing.free (name :: rest)

/-- One turn of the loop, for an entry other than `.` and `..`. -/
def copyEntry
    (job : Job)
    (recurse : Text → Text → Copying → Option Copying)
    (src dest : Text)
    (state : Copying) : Option Copying :=
  match lstat state.files job.machine.process src with
  | .error _ => some (state.perror "lstat entry failed")
  | .ok entrySt =>
      if isDir job.machine job.copySymlinks src entrySt state.files then
        recurse src dest state
      else
        some (copyFile job.machine job.copySymlinks job.copyPermissions src
          dest state)

theorem entryPath_eq_child
    {directory : Text}
    (short : (child directory name).length < pathMax) :
    entryPath directory name.val = child directory name := by
  refine List.take_of_length_le ?_
  rw [child] at short
  omega

section Loop

variable {recurse : Text → Text → Copying → Option Copying}

/-- The loop goes through its entries one by one. -/
theorem copyEntries_name
    (short : (descend job.src (names ++ [name])).length < pathMax ∧
      (descend job.dest (names ++ [name])).length < pathMax)
    (state : Copying) :
    copyEntries job.machine job.copySymlinks job.copyPermissions recurse
        (descend job.src names) (descend job.dest names)
        (name.val :: todo) state =
      (copyEntry job recurse (descend job.src (names ++ [name]))
        (descend job.dest (names ++ [name])) state).bind
        (copyEntries job.machine job.copySymlinks job.copyPermissions recurse
          (descend job.src names) (descend job.dest names) todo) := by
  have proper := name.property
  rw [descend_concat, descend_concat] at short ⊢
  rw [copyEntries]
  simp only [proper.2.1, proper.2.2.1, or_self, if_false,
    entryPath_eq_child short.1, entryPath_eq_child short.2, copyEntry]
  rcases lstat state.files job.machine.process
      (child (descend job.src names) name) with fault | entrySt
  · rfl
  · dsimp only
    split <;> rfl

theorem copyEntries_dot
    {text : Text}
    (dot : text = ['.'] ∨ text = ['.', '.'])
    (src dest : Text)
    (state : Copying) :
    copyEntries job.machine job.copySymlinks job.copyPermissions recurse
        src dest (text :: todo) state =
      copyEntries job.machine job.copySymlinks job.copyPermissions recurse
        src dest todo state := by
  rw [copyEntries]
  simp only [dot, if_true]

/-- The calls that the loop makes return and keep to their places. -/
def Calls
    (job : Job)
    (source origin : Place)
    (names : List Name)
    (recurse : Text → Text → Copying → Option Copying) : Prop :=
  ∀ name reached state, Leads job source (names ++ [name]) reached →
    Landing job origin (names ++ [name]) state.files →
      ∃ after, recurse (descend job.src (names ++ [name]))
          (descend job.dest (names ++ [name])) state = some after ∧
        SameOutside (origin ++ (names ++ [name])) state.files after.files

/-- The names that `readdir` lists in a directory. -/
def Listed (job : Job) (place : Place) (todo : List Text) : Prop :=
  ∀ text ∈ todo, (text = ['.'] ∨ text = ['.', '.']) ∨
    ∃ name : Name, name.val = text ∧ job.files.node (place ++ [name]) ≠ none

theorem copyEntry_same
    (placed : Placed job source origin)
    (apart : Apart job source origin)
    (leads : Leads job source names place)
    (lists : job.Lists place)
    (calls : Calls job source origin names recurse)
    {state : Copying}
    (stage : Stage job origin names (name.val :: todo) state.files) :
    ∃ after, copyEntry job recurse (descend job.src (names ++ [name]))
        (descend job.dest (names ++ [name])) state = some after ∧
      SameOutside (origin ++ names ++ [name]) state.files after.files := by
  unfold copyEntry
  split
  · exact ⟨_, rfl, fun _ _ => rfl⟩
  · rename_i node found
    split
    · rename_i directory
      rw [descend_concat] at found directory
      obtain ⟨reached, deeper⟩ :=
        leads_of_isDir placed apart stage.under leads lists found directory
      obtain ⟨after, returned, same⟩ :=
        calls name reached state deeper (stage.landing placed)
      exact ⟨after, returned, by rwa [List.append_assoc]⟩
    · refine ⟨_, rfl, ?_⟩
      rw [descend_concat job.dest]
      exact (copyFile_same placed stage _ _ _).sameOutside

/-- The loop returns and changes nothing but what its entries stand for. -/
theorem copyEntries_same
    (placed : Placed job source origin)
    (apart : Apart job source origin)
    (leads : Leads job source names place)
    (lists : job.Lists place)
    (calls : Calls job source origin names recurse)
    {todo : List Text}
    (listed : Listed job place todo)
    (nodup : todo.Nodup)
    (state : Copying)
    (stage : Stage job origin names todo state.files) :
    ∃ after, copyEntries job.machine job.copySymlinks job.copyPermissions
        recurse (descend job.src names) (descend job.dest names) todo state =
        some after ∧
      ∀ other, (∀ name : Name, name.val ∈ todo →
        ¬ origin ++ names ++ [name] <+: other) →
          after.files.node other = state.files.node other := by
  induction todo generalizing state with
  | nil => exact ⟨state, rfl, fun _ _ => rfl⟩
  | cons text todo ih =>
      obtain ⟨fresh, rest⟩ := List.nodup_cons.mp nodup
      have others : Listed job place todo :=
        fun text member => listed text (.tail _ member)
      rcases listed text (.head _) with dot | ⟨name, rfl, present⟩
      · rw [copyEntries_dot dot]
        obtain ⟨after, returned, same⟩ := ih others rest state stage.skip
        exact ⟨after, returned, fun other outside =>
          same other fun name member => outside name (.tail _ member)⟩
      · rw [copyEntries_name (placed.short.entries _ _ _ leads lists present)]
        obtain ⟨middle, returned, same⟩ :=
          copyEntry_same placed apart leads lists calls stage
        obtain ⟨after, finished, kept⟩ :=
          ih others rest middle (stage.next placed fresh same)
        rw [returned]
        refine ⟨after, finished, fun other outside => ?_⟩
        rw [kept other fun name member => outside name (.tail _ member)]
        exact same other (outside name (.head _))

end Loop

theorem listed_order
    (placed : Placed job source origin)
    (apart : Apart job source origin)
    (leads : Leads job source names place)
    (lists : job.Lists place)
    (under : Under job origin later)
    (src : Text) :
    Listed job place (job.machine.readdirOrder src
      (['.'] :: ['.', '.'] :: (entries later place).map Subtype.val)) := by
  intro text member
  rw [(job.machine.readdirOrder_perm _ _).mem_iff, List.mem_cons,
    List.mem_cons, List.mem_map] at member
  rcases member with dot | dots | ⟨name, member, rfl⟩
  · exact .inl (.inl dot)
  · exact .inl (.inr dots)
  · exact .inr ⟨name, rfl,
      (mem_entries_later placed apart under leads lists).mp member⟩

theorem nodup_order (machine : Machine) (src : Text) (files : Files)
    (place : Place) :
    (machine.readdirOrder src (['.'] :: ['.', '.'] ::
      (entries files place).map Subtype.val)).Nodup := by
  rw [(machine.readdirOrder_perm _ _).nodup_iff]
  have named : ∀ text ∈ (entries files place).map Subtype.val,
      ProperName text := by
    intro text member
    obtain ⟨name, _, rfl⟩ := List.mem_map.mp member
    exact name.property
  refine List.nodup_cons.mpr ⟨?_, List.nodup_cons.mpr ⟨?_, ?_⟩⟩
  · intro member
    rcases List.mem_cons.mp member with equal | listed
    · simp at equal
    · exact (named _ listed).2.1 rfl
  · exact fun listed => (named _ listed).2.2.1 rfl
  · exact (nodup_entries files place).map Subtype.val_injective

/--
`copy_directory` returns when it may use as many levels as paths of directories
below `src` are long, and changes nothing but what it makes of `dest`.
-/
theorem copyDirectory_same
    (placed : Placed job source origin)
    (apart : Apart job source origin)
    {bound : Nat}
    (deep : ∀ names place, Leads job source names place →
      names.length < bound)
    (depth : Nat)
    (leads : Leads job source names place)
    (enough : bound ≤ depth + names.length)
    (state : Copying)
    (landing : Landing job origin names state.files) :
    ∃ after, copyDirectory job.machine job.copySymlinks job.copyPermissions
        depth (descend job.src names) (descend job.dest names) state =
        some after ∧
      SameOutside (origin ++ names) state.files after.files := by
  induction depth generalizing names place state with
  | zero =>
      have := deep names place leads
      omega
  | succ depth ih =>
      rw [copyDirectory]
      split
      · exact ⟨_, rfl, fun _ _ => rfl⟩
      · dsimp only
        split
        · exact ⟨_, rfl, fun _ _ => rfl⟩
        · rename_i files made
          split
          · obtain ⟨_, same, _⟩ := landing.stage placed made []
            exact ⟨_, rfl, same⟩
          · rename_i listing opened
            obtain ⟨stage, same, _⟩ := landing.stage placed made
              (job.machine.readdirOrder (descend job.src names)
                (['.'] :: ['.', '.'] :: listing.map Subtype.val))
            obtain ⟨lists, rfl⟩ :=
              lists_later placed stage.under leads opened
            have calls : Calls job source origin names
                (copyDirectory job.machine job.copySymlinks
                  job.copyPermissions depth) := by
              intro name reached state deeper landing
              exact ih deeper (by simp; omega) state landing
            obtain ⟨after, returned, kept⟩ := copyEntries_same placed apart
              leads lists calls
              (listed_order placed apart leads lists stage.under _)
              (nodup_order _ _ _ _) { state with files := files } stage
            refine ⟨after, returned, fun other outside => ?_⟩
            rw [kept other fun name _ below => outside
              ((List.prefix_append _ _).trans below)]
            exact same other outside

end OSCourse.CopyTree
