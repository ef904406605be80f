import OSCourse.Library.FileTree

/-!
# The directory copier

`copy_file` and `copy_directory` of `ex5/copytree.c`.  The system calls are
those of the library's file tree.  What they leave open is part of the
`Machine`: the order in which `readdir` lists a directory, how many bytes a
`read` returns and how many a `write` takes.

The copier prints its complaints and goes on; `Copying` keeps the texts it
handed to `perror`.  `copy_directory` calls itself as deep as the tree goes, and
every level keeps its paths on the stack and its directory open.  Its model
takes the number of levels for which the stack and the descriptors suffice and
answers `none` beyond it.
-/

namespace OSCourse.CopyTree

open OSCourse.Library.FileTree

/-- `PATH_MAX`. -/
def pathMax : Nat := 4096

/-- The size of the buffer of `copy_file`. -/
def bufferSize : Nat := 4096

/-- The calling process and what the system calls leave open. -/
structure Machine where
  process : Process
  readdirOrder : Text → List Text → List Text
  readdirOrder_perm :
    ∀ directory names, (readdirOrder directory names).Perm names
  readAmount : Text → Nat → Nat
  writeAmount : Text → Nat → Nat → Nat

/-- The files and what has been printed by `perror`. -/
structure Copying where
  files : Files
  messages : List String

def Copying.perror (state : Copying) (message : String) : Copying :=
  { state with messages := state.messages ++ [message] }

/-- The permission bits of `st_mode`; those of a symbolic link are all set. -/
def mode : Node → BitVec 9
  | .dir perm => perm.mode
  | .file perm _ => perm.mode
  | .link _ => 0o777#9

/-- `S_ISDIR`. -/
def isDirectory : Node → Bool
  | .dir _ => true
  | _ => false

/-- `S_ISLNK`. -/
def isLink : Node → Bool
  | .link _ => true
  | _ => false

/-- How the loop of `copy_file` is left. -/
inductive Transfer where
  | finished
  | readFailed
  | writeFailed
  deriving DecidableEq

/--
The loop of `copy_file`.  Every turn but the last moves at least one byte, so
it takes at most one turn a byte and one more.
-/
def transfer
    (machine : Machine)
    (src dest : Text)
    (source target : Place) :
    Nat → Nat → Files → Files × Transfer
  | 0, _, files => (files, .finished)
  | turns + 1, offset, files =>
      match readAt files source offset
          (max 1 (min bufferSize (machine.readAmount src offset))) with
      | .error _ => (files, .readFailed)
      | .ok [] => (files, .finished)
      | .ok (byte :: bytes) =>
          let data := byte :: bytes
          let taken := machine.writeAmount dest offset data.length
          let files := writeAt files target offset (data.take taken)
          if taken ≠ data.length then (files, .writeFailed)
          else transfer machine src dest source target turns
            (offset + data.length) files

/-- The number of turns that suffice for the loop. -/
def turnsFor (files : Files) (source : Place) : Nat :=
  match files.node source with
  | some (.file _ content) => content.length + 1
  | _ => 1

/-- The part of `copy_file` that sets the permissions. -/
def copyMode
    (machine : Machine)
    (src dest : Text)
    (state : Copying) : Copying :=
  match stat state.files machine.process src with
  | .error _ => state.perror "stat failed for chmod"
  | .ok target =>
      match chmod state.files machine.process dest (mode target) with
      | .error _ => state.perror "chmod failed"
      | .ok files => { state with files := files }

/-- The part of `copy_file` that recreates a symbolic link. -/
def copyLink
    (machine : Machine)
    (src dest : Text)
    (state : Copying) : Copying :=
  match readlink state.files machine.process (pathMax - 1) src with
  | .error _ => state.perror "readlink failed"
  | .ok linkTarget =>
      match symlink state.files machine.process linkTarget dest with
      | .error _ => state.perror "symlink failed"
      | .ok files => { state with files := files }

/-- The part of `copy_file` that copies bytes. -/
def copyContent
    (machine : Machine)
    (src dest : Text)
    (copyPermissions : Bool)
    (state : Copying) : Copying :=
  match openRead state.files machine.process src with
  | .error _ => state.perror "open src failed"
  | .ok source =>
      match openWrite state.files machine.process dest 0o644#9 with
      | .error _ => state.perror "open dest failed"
      | .ok (target, files) =>
          let (files, outcome) :=
            transfer machine src dest source target
              (turnsFor files source) 0 files
          let state := { state with files := files }
          match outcome with
          | .writeFailed => state.perror "write failed"
          | .readFailed =>
              let state := state.perror "read failed"
              if copyPermissions then copyMode machine src dest state
              else state
          | .finished =>
              if copyPermissions then copyMode machine src dest state
              else state

/-- `copy_file`. -/
def copyFile
    (machine : Machine)
    (copySymlinks copyPermissions : Bool)
    (src dest : Text)
    (state : Copying) : Copying :=
  match lstat state.files machine.process src with
  | .error _ => state.perror "lstat failed"
  | .ok st =>
      if isLink st && copySymlinks then copyLink machine src dest state
      else copyContent machine src dest copyPermissions state

/-- Whether `copy_directory` calls itself for an entry. -/
def isDir
    (machine : Machine)
    (copySymlinks : Bool)
    (srcPath : Text)
    (entrySt : Node)
    (files : Files) : Bool :=
  isDirectory entrySt ||
    (isLink entrySt && !copySymlinks &&
      match stat files machine.process srcPath with
      | .ok target => isDirectory target
      | .error _ => false)

/-- `snprintf(…, PATH_MAX, "%s/%s", …)`. -/
def entryPath (directory entry : Text) : Text :=
  (directory ++ '/' :: entry).take (pathMax - 1)

/-- The loop of `copy_directory`; `recurse` is the call to itself. -/
def copyEntries
    (machine : Machine)
    (copySymlinks copyPermissions : Bool)
    (recurse : Text → Text → Copying → Option Copying)
    (src dest : Text) :
    List Text → Copying → Option Copying
  | [], state => some state
  | entry :: rest, state =>
      let next :=
        copyEntries machine copySymlinks copyPermissions recurse src dest rest
      if entry = ['.'] ∨ entry = ['.', '.'] then next state
      else
        let srcPath := entryPath src entry
        let destPath := entryPath dest entry
        match lstat state.files machine.process srcPath with
        | .error _ => next (state.perror "lstat entry failed")
        | .ok entrySt =>
            if isDir machine copySymlinks srcPath entrySt state.files then
              (recurse srcPath destPath state).bind next
            else
              next (copyFile machine copySymlinks copyPermissions
                srcPath destPath state)

/-- `copy_directory`, calling itself at most `depth` deep. -/
def copyDirectory
    (machine : Machine)
    (copySymlinks copyPermissions : Bool) :
    Nat → Text → Text → Copying → Option Copying
  | 0, _, _, _ => none
  | depth + 1, src, dest, state =>
      match stat state.files machine.process src with
      | .error _ => some (state.perror "stat src dir failed")
      | .ok st =>
          let dirMode := if copyPermissions then mode st else 0o755#9
          match mkdir state.files machine.process dest dirMode with
          | .error _ => some (state.perror "mkdir failed")
          | .ok files =>
              let state := { state with files := files }
              match opendir state.files machine.process src with
              | .error _ => some (state.perror "opendir failed")
              | .ok names =>
                  copyEntries machine copySymlinks copyPermissions
                    (copyDirectory machine copySymlinks copyPermissions depth)
                    src dest
                    (machine.readdirOrder src
                      (['.'] :: ['.', '.'] :: names.map Subtype.val))
                    state

/-! ## Depth -/

section Depth

variable {machine : Machine} {copySymlinks copyPermissions : Bool}

/-- A loop that returns does so with calls that return more often. -/
theorem copyEntries_mono
    {shallow deep : Text → Text → Copying → Option Copying}
    (more : ∀ src dest state after,
      shallow src dest state = some after → deep src dest state = some after)
    {src dest : Text}
    {todo : List Text}
    {state after : Copying}
    (returned : copyEntries machine copySymlinks copyPermissions shallow src
      dest todo state = some after) :
    copyEntries machine copySymlinks copyPermissions deep src dest todo
      state = some after := by
  induction todo generalizing state with
  | nil => exact returned
  | cons entry rest ih =>
      rw [copyEntries] at returned ⊢
      split
      · rename_i dot
        rw [if_pos dot] at returned
        exact ih returned
      · rename_i proper
        rw [if_neg proper] at returned
        rcases found : lstat state.files machine.process
            (entryPath src entry) with fault | entrySt
        · simp only [found] at returned ⊢
          exact ih returned
        · simp only [found] at returned ⊢
          split
          · rename_i directory
            rw [if_pos directory, Option.bind_eq_some_iff] at returned
            obtain ⟨middle, called, following⟩ := returned
            rw [more _ _ _ _ called]
            exact ih following
          · rename_i plain
            rw [if_neg plain] at returned
            exact ih returned

/-- A call that returns does so with more levels of recursion to use. -/
theorem copyDirectory_mono
    {depth more : Nat}
    (le : depth ≤ more)
    {src dest : Text}
    {state after : Copying}
    (returned : copyDirectory machine copySymlinks copyPermissions depth src
      dest state = some after) :
    copyDirectory machine copySymlinks copyPermissions more src dest state =
      some after := by
  induction depth generalizing more src dest state after with
  | zero => cases returned
  | succ depth ih =>
      obtain ⟨lower, rfl⟩ : ∃ lower, more = lower + 1 :=
        ⟨more - 1, by omega⟩
      rw [copyDirectory] at returned ⊢
      revert returned
      rcases stat state.files machine.process src with fault | st
      · exact id
      · dsimp only
        rcases mkdir state.files machine.process dest
            (if copyPermissions then mode st else 0o755#9) with fault | files
        · exact id
        · dsimp only
          rcases opendir files machine.process src with fault | names
          · exact id
          · intro returned
            exact copyEntries_mono
              (fun src dest state after called => ih (by omega) called)
              returned

end Depth

end OSCourse.CopyTree
