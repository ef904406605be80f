import Mathlib.Data.Set.Card
import OSCourse.CopyTree.Exactness

/-!
# The depth of the recursion

Nothing in `copy_directory` bounds its recursion: it ends with the tree it
walks.  Before the call the directories it can come to are finitely many, and a
path that comes to none of them twice is no longer than they are many.  So the
recursion is as shallow as that unless the copy adds to the tree that it walks,
a link leads back to a directory above it, or a path is cut at `PATH_MAX`.  That
it leaves a copy takes more: everything must be readable, and every `mkdir`,
`open` and `write` must succeed.
-/

namespace OSCourse.CopyTree

open OSCourse.Library.FileTree

variable {job : Job} {source origin place : Place}
variable {names : List Name}

/-- The directories that can be reached from the source before the call. -/
def Job.directories (job : Job) (source : Place) : Set Place :=
  { place | ∃ names, Leads job source names place }

/-- No directory that the copier walks is reached again from itself. -/
def Acyclic (job : Job) (source : Place) : Prop :=
  ∀ names more place, Leads job source names place →
    Leads job source (names ++ more) place → more = []

/-! ## Chains of directories -/

theorem finite_directories
    (directory : ∃ perm, job.files.node source = some (.dir perm)) :
    (job.directories source).Finite := by
  refine (List.finite_toSet job.files.keys).subset ?_
  rintro place ⟨names, leads⟩
  obtain ⟨perm, found⟩ := leads.directory_of directory
  exact Files.of_keys (fun place member _ _ => member) found

/-- The copier comes to a directory through all beginnings of its path. -/
theorem Leads.take
    (leads : Leads job source names place)
    (count : Nat) :
    ∃ above, Leads job source (names.take count) above := by
  induction names using List.reverseRecOn generalizing place with
  | nil => exact ⟨place, by simpa using leads⟩
  | append_singleton names name ih =>
      by_cases whole : (names ++ [name]).length ≤ count
      · exact ⟨place, by rwa [List.take_of_length_le whole]⟩
      · obtain ⟨above, parent, _⟩ := leads.parent
        rw [List.take_append_of_le_length (by simp at whole; omega)]
        exact ih parent

/-- A path without repetition is shorter than the directories are many. -/
theorem length_lt_ncard
    (directory : ∃ perm, job.files.node source = some (.dir perm))
    (acyclic : Acyclic job source)
    (names : List Name)
    (place : Place)
    (leads : Leads job source names place) :
    names.length < (job.directories source).ncard := by
  choose above chain using leads.take
  have ordered : ∀ first second, first ≤ second → second ≤ names.length →
      above first = above second → first = second := by
    intro first second order inside equal
    have split : names.take second =
        names.take first ++ (names.drop first).take (second - first) := by
      rw [← List.take_add, Nat.add_sub_cancel' order]
    have again := chain second
    rw [split, ← equal] at again
    have empty := congrArg List.length (acyclic _ _ _ (chain first) again)
    simp only [List.length_take, List.length_drop, List.length_nil] at empty
    omega
  have injective : Set.InjOn above (Finset.range (names.length + 1)) := by
    intro first inFirst second inSecond equal
    simp only [Finset.coe_range, Set.mem_Iio] at inFirst inSecond
    rcases Nat.le_total first second with order | order
    · exact ordered first second order (by omega) equal
    · exact (ordered second first order (by omega) equal.symm).symm
  have finite := finite_directories directory
  have inside : ∀ count ∈ Finset.range (names.length + 1),
      above count ∈ finite.toFinset := by
    intro count _
    rw [Set.Finite.mem_toFinset]
    exact ⟨_, chain count⟩
  have bound := Finset.card_le_card_of_injOn above inside injective
  rw [Finset.card_range, ← Set.ncard_eq_toFinset_card _ finite] at bound
  omega

/-- With as many levels as there are directories the copier gets everywhere. -/
theorem suffices_of_ncard
    (directory : ∃ perm, job.files.node source = some (.dir perm))
    (acyclic : Acyclic job source)
    {depth : Nat}
    (enough : (job.directories source).ncard ≤ depth) :
    Suffices job source depth :=
  fun names place leads =>
    (length_lt_ncard directory acyclic names place leads).trans_le enough

/-! ## The law -/

/--
The recursion is never deeper than there are directories below the source, so
the call returns when the stack and the descriptors suffice for as many levels;
and a copy of the tree as it was before the call stands at `dest`.
-/
def DepthLaw (job : Job) (source : Place) : Prop :=
  ∃ after,
    (∀ depth, (job.directories source).ncard ≤ depth →
      job.run depth = some after) ∧
    ∃ origin,
      locateNew job.files job.machine.process job.dest = .ok origin ∧
        ∀ names, after.files.node (origin ++ names) =
          (job.seen source names).map job.goal

/--
Whatever fails on the way, the recursion is never deeper than there are
directories below the source: `mkdir` fails at once, or the copy keeps apart
from what it walks, no directory is reached from itself, and no path is cut.
-/
theorem run_bounded
    (wellFormed : WellFormed job.files)
    (home : ∃ perm,
      job.files.node job.machine.process.cwd = some (.dir perm))
    (located :
      locate job.files job.machine.process true job.src = .ok source)
    (directory : ∃ perm, job.files.node source = some (.dir perm))
    (tame : ∀ origin, Makeable job origin →
      Apart job source origin ∧ Acyclic job source ∧ Short job source) :
    ∃ after, ∀ depth, (job.directories source).ncard ≤ depth →
      job.run depth = some after := by
  by_cases makeable : ∃ origin, Makeable job origin
  · obtain ⟨origin, makeable⟩ := makeable
    obtain ⟨apart, acyclic, short⟩ := tame origin makeable
    have placed : Placed job source origin :=
      { wellFormed := wellFormed
        home := home
        located := located
        directory := directory
        target := makeable.target
        absent := makeable.absent
        short := short }
    obtain ⟨after, returned, _⟩ := run_same placed apart
    exact ⟨after, fun depth enough =>
      returned depth (suffices_of_ncard directory acyclic enough)⟩
  · rw [not_exists] at makeable
    obtain ⟨perm, found⟩ := directory
    have reported : stat job.files job.machine.process job.src =
        .ok (.dir perm) :=
      status_eq_ok.mpr ⟨source, located, found⟩
    have positive : 0 < (job.directories source).ncard :=
      (Set.ncard_pos (finite_directories ⟨perm, found⟩)).mpr
        ⟨source, [], .source⟩
    refine ⟨⟨job.files, ["mkdir failed"]⟩, fun depth enough => ?_⟩
    obtain ⟨lower, rfl⟩ : ∃ lower, depth = lower + 1 :=
      ⟨depth - 1, by omega⟩
    exact run_of_unmakeable reported makeable lower

/--
A readable tree and a missing `dest` that keeps apart from it: no directory is
reached from itself, no path is cut, no write fails, and the process may make
entries in every directory it has made for some.
-/
structure Tame (job : Job) (source origin : Place) : Prop extends
    Ready job source origin where
  apart : Apart job source origin
  acyclic : Acyclic job source
  roomy :
    ∀ names name, job.seen source (names ++ [name]) ≠ none →
      Roomy job.machine.process ((job.seen source names).map job.goal)

/--
A tame call copies its tree and calls itself no deeper than there are
directories below the source.
-/
theorem depth_bounded
    (tame : Tame job source origin) :
    DepthLaw job source := by
  obtain ⟨after, returned⟩ := run_bounded tame.wellFormed tame.home
    tame.located tame.directory (fun other makeable => by
      obtain rfl : other = origin :=
        Except.ok.inj (makeable.target.symm.trans tame.target)
      exact ⟨tame.apart, tame.acyclic, tame.short⟩)
  obtain ⟨_, final, finished, _, copied⟩ :=
    treeCopied_of_roomy tame.toReady tame.apart tame.roomy
  have same : final = after :=
    Option.some.inj ((finished _ (suffices_of_ncard tame.directory
      tame.acyclic le_rfl)).symm.trans (returned _ le_rfl))
  exact ⟨after, returned, origin, tame.target, same ▸ copied⟩

theorem roomy_of_root
    {process : Process}
    (root : process.root = true)
    (perm : Perm) :
    Roomy process (some (.dir perm)) := by
  simp [Roomy, Process.may, root]

/-- A link to a directory beside it leads to no directory from itself. -/
theorem tame_webJob : Tame webJob [srcName] [destName] := by
  have ready := readable_webJob.ready placed_webJob room_webJob fun _ _ _ => rfl
  refine
    { toReady := ready
      apart := readable_webJob.apart placed_webJob (by decide)
        fun _ => unmissed_webJob
      acyclic := ?_
      roomy := ?_ }
  · intro names more place first second
    have known := first.covered covers_webJob located_webJob
    have again := second.covered covers_webJob located_webJob
    have checked : ∀ call ∈ webCalls, ∀ other ∈ webCalls,
        call.2 = other.2 → call.1 <+: other.1 → call.1 = other.1 := by
      decide
    simpa using checked _ known _ again rfl (List.prefix_append _ _)
  · intro names name visible
    obtain ⟨perm, found⟩ := ready.seen_parent visible
    rw [found]
    exact roomy_of_root rfl _

theorem depth_bounded_webJob : DepthLaw webJob [srcName] :=
  depth_bounded tame_webJob

/-- A copy into the directory itself. -/
def innerJob : Job :=
  { smallJob true true false 0o022#9 (smallRoot 0o755#9) with
    dest := ['/', 's', '/', 'd'] }

/-- A copy into the directory it walks goes deeper than that directory. -/
theorem copy_into_itself :
    ¬ ∀ (job : Job) (source origin : Place), Ready job source origin →
      (∀ names name, job.seen source (names ++ [name]) ≠ none →
        Roomy job.machine.process ((job.seen source names).map job.goal)) →
        DepthLaw job source := by
  intro law
  have start : locate innerJob.files innerJob.machine.process true
      innerJob.src = .ok [srcName] := by
    decide
  have covers : Covers innerJob [srcName] [([], [srcName])] := by
    decide
  have placed : Placed innerJob [srcName] [srcName, destName] :=
    { wellFormed := wellFormed_smallRoot _
      home := ⟨ownedBy 0o755#9, by decide⟩
      located := start
      directory := ⟨ownedBy 0o755#9, by decide⟩
      target := by decide
      absent := by decide
      short := short_of_covers covers start (by decide) (by decide) }
  have readable : AllReadable innerJob [srcName] :=
    fun _ node _ => readable_of_root rfl node
  have ready : Ready innerJob [srcName] [srcName, destName] :=
    readable.ready placed ⟨ownedBy 0o755#9, by decide⟩
      fun _ _ _ => rfl
  obtain ⟨after, returned, _⟩ := law innerJob _ _ ready (by
    intro names name visible
    obtain ⟨perm, found⟩ := ready.seen_parent visible
    rw [found]
    exact roomy_of_root rfl _)
  have single : innerJob.directories [srcName] = {[srcName]} := by
    ext place
    constructor
    · rintro ⟨names, leads⟩
      have known := leads.covered covers start
      simp only [List.mem_singleton, Prod.mk.injEq] at known
      exact known.2
    · rintro rfl
      exact ⟨[], .source⟩
  have shallow : innerJob.run 1 = none := by
    have checked : (innerJob.run 1).isNone = true := by decide
    simpa using checked
  have deep := returned 1 (by rw [single, Set.ncard_singleton])
  rw [shallow] at deep
  cases deep

end OSCourse.CopyTree
