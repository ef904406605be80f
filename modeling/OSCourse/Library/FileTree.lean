import Mathlib.Data.List.AList
import Mathlib.Data.List.Induction
import OSCourse.Library.PosixFile

/-!
# The name space of a POSIX file system

A file system is a finite table from canonical places to nodes: directories,
regular files and symbolic links.  A path is a text.  `walk` resolves the
components of a path one by one as the kernel does: `.` and `..`, the search
permission of every directory it passes, symbolic links wherever they stand, the
directory that a slash at the end asks for, and a budget of links after which
the walk is refused.  A walk ends at the place of the last component, which may
still be free.  A fault carries the place at which it arose.

The main facts are how a walk of a longer path starts with a walk of its
beginning (`walk_append`), and that a walk does not notice what happens below
a place at which it did not stop (`walk_later`).
-/

namespace OSCourse.Library.FileTree

open OSCourse.Library.PosixFile (overwrite)

/-! ## Names and paths -/

/--
The text of a path, of a name or of the target of a link; a character stands
for one byte.
-/
abbrev Text := List Char

/-- `NAME_MAX`. -/
def nameMax : Nat := 255

/-- The texts that can name an entry of a directory. -/
def ProperName (text : Text) : Prop :=
  text ≠ [] ∧ text ≠ ['.'] ∧ text ≠ ['.', '.'] ∧ '/' ∉ text ∧
    text.length ≤ nameMax

instance (text : Text) : Decidable (ProperName text) :=
  inferInstanceAs (Decidable (_ ∧ _ ∧ _ ∧ _ ∧ _))

/-- The name of an entry of a directory. -/
abbrev Name := { text : Text // ProperName text }

/-- A canonical place: the names that lead to it from the root. -/
abbrev Place := List Name

/--
One component of a path: `.`, `..`, a name, a word longer than any name, or the
slash at the end.
-/
inductive Component where
  | here
  | up
  | name (name : Name)
  | long
  | slash
  deriving DecidableEq

/-- The component a word between two slashes stands for, if any. -/
def component (word : Text) : Option Component :=
  if proper : ProperName word then some (.name ⟨word, proper⟩)
  else if word = ['.'] then some .here
  else if word = ['.', '.'] then some .up
  else if word = [] then none
  else some .long

/-- The components of a path, but for a slash at the end. -/
def components (text : Text) : List Component :=
  (text.splitOn '/').filterMap component

/-- All components of a path. -/
def steps (text : Text) : List Component :=
  if text.getLast? = some '/' then components text ++ [.slash]
  else components text

/-- Where the components of a path start: at the root or where one stands. -/
def base (text : Text) (place : Place) : Place :=
  if text.head? = some '/' then [] else place

/-- The path of the entry `name` of the directory a path leads to. -/
def child (text : Text) (name : Name) : Text :=
  text ++ '/' :: name.val

/-- The path that goes down from `text` along `names`. -/
def descend (text : Text) (names : List Name) : Text :=
  names.foldl child text

@[simp]
theorem descend_nil (text : Text) : descend text [] = text :=
  rfl

@[simp]
theorem descend_concat
    (text : Text)
    (names : List Name)
    (name : Name) :
    descend text (names ++ [name]) = child (descend text names) name := by
  simp [descend]

@[simp]
theorem components_child
    (text : Text)
    (name : Name) :
    components (child text name) = components text ++ [.name name] := by
  have single : name.val.splitOn '/' = [name.val] :=
    List.splitOn_eq_singleton name.property.2.2.2.1
  have split := List.splitOn_append_cons_self (a := '/') text name.val
  simp [components, child, split, single, component, name.property]

/-- The path of an entry ends in its name. -/
@[simp]
theorem steps_child
    (text : Text)
    (name : Name) :
    steps (child text name) = components text ++ [.name name] := by
  have bare : (child text name).getLast? ≠ some '/' := by
    intro ends
    obtain ⟨front, letter, whole⟩ :=
      (List.eq_nil_or_concat name.val).resolve_left name.property.1
    rw [List.concat_eq_append] at whole
    rw [child, whole, ← List.cons_append, ← List.append_assoc,
      List.getLast?_concat, Option.some.injEq] at ends
    have inside : '/' ∈ name.val := by
      rw [whole, ends]
      simp
    exact name.property.2.2.2.1 inside
  rw [steps, if_neg bare, components_child]

theorem child_ne_nil (text : Text) (name : Name) : child text name ≠ [] := by
  simp [child]

theorem base_child
    {text : Text}
    (nonempty : text ≠ [])
    (name : Name)
    (place : Place) :
    base (child text name) place = base text place := by
  cases text with
  | nil => exact absurd rfl nonempty
  | cons letter rest => rfl

theorem length_descend (text : Text) (names : List Name) :
    text.length + names.length ≤ (descend text names).length := by
  induction names using List.reverseRecOn with
  | nil => simp
  | append_singleton names name ih =>
      simp only [descend_concat, child, List.length_append, List.length_cons,
        List.length_nil]
      omega

/-! ## Nodes and permissions -/

/-- What a process does with a node. -/
inductive Access where
  | read
  | write
  | search
  deriving DecidableEq

/-- Which three of the nine permission bits concern the process. -/
inductive UserClass where
  | owner
  | group
  | other
  deriving DecidableEq

/-- The permission bits of a node and the class the process is in for it. -/
structure Perm where
  mode : BitVec 9
  cls : UserClass
  deriving DecidableEq

/-- A directory, a regular file or a symbolic link. -/
inductive Node where
  | dir (perm : Perm)
  | file (perm : Perm) (content : List UInt8)
  | link (text : Text)
  deriving DecidableEq

/-- The nodes of a file system. -/
abbrev Files := AList fun _ : Place => Node

/-- What a table has at a place. -/
def Files.node (files : Files) (place : Place) : Option Node :=
  AList.lookup place files

/-- The table with another node at a place. -/
def Files.put (files : Files) (place : Place) (node : Node) : Files :=
  AList.insert place node files

@[simp]
theorem Files.node_put (files : Files) (place : Place) (node : Node) :
    (files.put place node).node place = some node :=
  AList.lookup_insert files

theorem Files.node_put_of_ne
    (files : Files)
    {place other : Place}
    (apart : other ≠ place)
    (node : Node) :
    (files.put place node).node other = files.node other :=
  AList.lookup_insert_ne apart

/-- What holds of everything listed in a table holds of what it has. -/
theorem Files.of_keys
    {files : Files}
    {holds : Place → Node → Prop}
    (all : ∀ place ∈ files.keys, ∀ node ∈ files.node place,
      holds place node)
    {place : Place}
    {node : Node}
    (found : files.node place = some node) :
    holds place node := by
  refine all place ?_ node found
  rw [← AList.mem_keys, ← AList.lookup_isSome]
  exact Option.isSome_of_mem found

/-- What the kernel knows about the calling process. -/
structure Process where
  root : Bool
  umask : BitVec 9
  cwd : Place
  maxLinks : Nat

/-- The number of a permission bit. -/
def Access.bit : Access → UserClass → Nat
  | .read, .owner => 8
  | .write, .owner => 7
  | .search, .owner => 6
  | .read, .group => 5
  | .write, .group => 4
  | .search, .group => 3
  | .read, .other => 2
  | .write, .other => 1
  | .search, .other => 0

/-- Whether the process may do this; the superuser may do everything. -/
def Process.may (process : Process) (perm : Perm) (access : Access) : Bool :=
  process.root || perm.mode.getLsbD (access.bit perm.cls)

/-- The mode a new node gets from the mode asked for. -/
def Process.masked (process : Process) (mode : BitVec 9) : Perm :=
  { mode := mode &&& ~~~process.umask
    cls := .owner }

/-- Why a call fails, with the place at which it does. -/
inductive Fault where
  | missing (place : Place)
  | notDirectory (place : Place)
  | denied (place : Place)
  | tooManyLinks (place : Place)
  | present (place : Place)
  | isDirectory (place : Place)
  | notOwner (place : Place)
  | invalid (place : Place)
  | nameTooLong (place : Place)
  | emptyPath
  deriving DecidableEq

/-! ## Walking along a path -/

/-- Pass through a directory to one of its entries. -/
def enter (files : Files) (process : Process) (place : Place) :
    Except Fault Unit :=
  match files.node place with
  | none => .error (.missing place)
  | some (.dir perm) =>
      if process.may perm .search then .ok () else .error (.denied place)
  | some _ => .error (.notDirectory place)

/-- What the place must allow for a step: a slash asks for a directory only. -/
def pass (files : Files) (process : Process) (place : Place) :
    Component → Except Fault Unit
  | .slash =>
      match files.node place with
      | none => .error (.missing place)
      | some (.dir _) => .ok ()
      | some _ => .error (.notDirectory place)
  | .here => enter files process place
  | .up => enter files process place
  | .name _ => enter files process place
  | .long => enter files process place

/--
Walk along components from a place; `jump` goes on behind a symbolic link.
A link in the last component is left alone unless `follow` is set.
-/
def walkWith
    (files : Files)
    (process : Process)
    (follow : Bool)
    (jump : Place → List Component → Except Fault Place) :
    Place → List Component → Except Fault Place
  | place, [] => .ok place
  | place, step :: rest =>
      match pass files process place step with
      | .error fault => .error fault
      | .ok () =>
          match step with
          | .here => walkWith files process follow jump place rest
          | .slash => walkWith files process follow jump place rest
          | .up => walkWith files process follow jump place.dropLast rest
          | .long => .error (.nameTooLong place)
          | .name name =>
              match files.node (place ++ [name]) with
              | none =>
                  if rest = [] then .ok (place ++ [name])
                  else .error (.missing (place ++ [name]))
              | some (.link text) =>
                  if rest = [] ∧ follow = false then .ok (place ++ [name])
                  else jump (base text place) (steps text ++ rest)
              | some _ =>
                  walkWith files process follow jump (place ++ [name]) rest

/-- Walk along components with a budget of symbolic links. -/
def walk
    (files : Files)
    (process : Process)
    (follow : Bool) :
    Nat → Place → List Component → Except Fault Place
  | 0 =>
      walkWith files process follow
        (fun place _ => .error (.tooManyLinks place))
  | budget + 1 =>
      walkWith files process follow (walk files process follow budget)

/-- The place a path leads to, whether or not something is there. -/
def locate
    (files : Files)
    (process : Process)
    (follow : Bool)
    (text : Text) : Except Fault Place :=
  if text = [] then .error .emptyPath
  else
    walk files process follow process.maxLinks
      (base text process.cwd) (steps text)

/--
The place at which a path makes a directory: a slash at the end asks for
nothing there, and a symbolic link is not followed.
-/
def locateNew
    (files : Files)
    (process : Process)
    (text : Text) : Except Fault Place :=
  if text = [] then .error .emptyPath
  else
    walk files process false process.maxLinks
      (base text process.cwd) (components text)

/-! ## System calls -/

/-- What `stat` (with `follow`) and `lstat` report. -/
def status
    (files : Files)
    (process : Process)
    (follow : Bool)
    (text : Text) : Except Fault Node :=
  match locate files process follow text with
  | .error fault => .error fault
  | .ok place =>
      match files.node place with
      | none => .error (.missing place)
      | some node => .ok node

/-- `stat`. -/
def stat (files : Files) (process : Process) (text : Text) :
    Except Fault Node :=
  status files process true text

/-- `lstat`. -/
def lstat (files : Files) (process : Process) (text : Text) :
    Except Fault Node :=
  status files process false text

/-- `readlink` into a buffer of `size` characters. -/
def readlink
    (files : Files)
    (process : Process)
    (size : Nat)
    (text : Text) : Except Fault Text :=
  match locate files process false text with
  | .error fault => .error fault
  | .ok place =>
      match files.node place with
      | none => .error (.missing place)
      | some (.link target) => .ok (target.take size)
      | some _ => .error (.invalid place)

/-- Put a new node at a free place; its directory must be writable. -/
def create
    (files : Files)
    (process : Process)
    (place : Place)
    (node : Node) : Except Fault Files :=
  match files.node place.dropLast with
  | some (.dir perm) =>
      if process.may perm .write then .ok (files.put place node)
      else .error (.denied place.dropLast)
  | some _ => .error (.notDirectory place.dropLast)
  | none => .error (.missing place.dropLast)

/-- Make a new entry at the place that was located, unless something is
there. -/
def makeEntry
    (files : Files)
    (process : Process)
    (located : Except Fault Place)
    (node : Node) : Except Fault Files :=
  match located with
  | .error fault => .error fault
  | .ok place =>
      match files.node place with
      | some _ => .error (.present place)
      | none => create files process place node

/-- `mkdir`. -/
def mkdir
    (files : Files)
    (process : Process)
    (text : Text)
    (mode : BitVec 9) : Except Fault Files :=
  makeEntry files process (locateNew files process text)
    (.dir (process.masked mode))

/-- `symlink`; an empty target is refused. -/
def symlink
    (files : Files)
    (process : Process)
    (target text : Text) : Except Fault Files :=
  if target = [] then .error .emptyPath
  else
    makeEntry files process (locate files process false text) (.link target)

/-- `open` with `O_RDONLY`. -/
def openRead (files : Files) (process : Process) (text : Text) :
    Except Fault Place :=
  match locate files process true text with
  | .error fault => .error fault
  | .ok place =>
      match files.node place with
      | some (.dir perm) =>
          if process.may perm .read then .ok place else .error (.denied place)
      | some (.file perm _) =>
          if process.may perm .read then .ok place else .error (.denied place)
      | some (.link _) => .error (.tooManyLinks place)
      | none => .error (.missing place)

/-- `open` with `O_WRONLY | O_CREAT | O_TRUNC`. -/
def openWrite
    (files : Files)
    (process : Process)
    (text : Text)
    (mode : BitVec 9) : Except Fault (Place × Files) :=
  match locate files process true text with
  | .error fault => .error fault
  | .ok place =>
      match files.node place with
      | none =>
          (create files process place (.file (process.masked mode) [])).map
            fun files => (place, files)
      | some (.file perm _) =>
          if process.may perm .write then
            .ok (place, files.put place (.file perm []))
          else .error (.denied place)
      | some (.dir _) => .error (.isDirectory place)
      | some (.link _) => .error (.tooManyLinks place)

/-- `read` of at most `count` bytes from `offset` of an open file. -/
def readAt (files : Files) (place : Place) (offset count : Nat) :
    Except Fault (List UInt8) :=
  match files.node place with
  | some (.file _ content) => .ok ((content.drop offset).take count)
  | some (.dir _) => .error (.isDirectory place)
  | _ => .error (.invalid place)

/-- `write` of `data` at `offset` of an open file. -/
def writeAt
    (files : Files)
    (place : Place)
    (offset : Nat)
    (data : List UInt8) : Files :=
  match files.node place with
  | some (.file perm content) =>
      files.put place (.file perm (overwrite content offset data))
  | _ => files

/-- `chmod`. -/
def chmod
    (files : Files)
    (process : Process)
    (text : Text)
    (mode : BitVec 9) : Except Fault Files :=
  match locate files process true text with
  | .error fault => .error fault
  | .ok place =>
      match files.node place with
      | some (.dir perm) =>
          if process.root ∨ perm.cls = .owner then
            .ok (files.put place (.dir { perm with mode := mode }))
          else .error (.notOwner place)
      | some (.file perm content) =>
          if process.root ∨ perm.cls = .owner then
            .ok (files.put place (.file { perm with mode := mode } content))
          else .error (.notOwner place)
      | some (.link _) => .error (.tooManyLinks place)
      | none => .error (.missing place)

/-- The name under which a place is an entry of a directory, if it is one. -/
def entryOf (directory place : Place) : Option Name :=
  place.getLast?.filter fun name => place = directory ++ [name]

/-- The names of the entries of a directory. -/
def entries (files : Files) (directory : Place) : List Name :=
  files.keys.filterMap (entryOf directory)

/-- `opendir`: the entries that `readdir` goes through. -/
def opendir (files : Files) (process : Process) (text : Text) :
    Except Fault (List Name) :=
  match locate files process true text with
  | .error fault => .error fault
  | .ok place =>
      match files.node place with
      | some (.dir perm) =>
          if process.may perm .read then .ok (entries files place)
          else .error (.denied place)
      | some _ => .error (.notDirectory place)
      | none => .error (.missing place)

/-! ## Entries of a directory -/

theorem entryOf_eq_some
    {directory place : Place}
    {name : Name} :
    entryOf directory place = some name ↔ place = directory ++ [name] := by
  constructor
  · intro found
    obtain ⟨_, here⟩ := Option.filter_eq_some_iff.mp found
    exact of_decide_eq_true here
  · rintro rfl
    simp [entryOf]

theorem mem_entries
    {files : Files}
    {directory : Place}
    {name : Name} :
    name ∈ entries files directory ↔
      files.node (directory ++ [name]) ≠ none := by
  simp only [entries, List.mem_filterMap, entryOf_eq_some]
  rw [Files.node, Ne, AList.lookup_eq_none, not_not, AList.mem_keys]
  constructor
  · rintro ⟨place, listed, rfl⟩
    exact listed
  · intro listed
    exact ⟨_, listed, rfl⟩

theorem nodup_entries (files : Files) (directory : Place) :
    (entries files directory).Nodup := by
  refine List.Nodup.filterMap ?_ files.nodupKeys
  intro first second name inFirst inSecond
  rw [Option.mem_def, entryOf_eq_some] at inFirst inSecond
  rw [inFirst, inSecond]

/-! ## The steps of a walk -/

/-- Whatever is in the table is an entry of a directory. -/
def Closed (files : Files) : Prop :=
  ∀ place name, files.node (place ++ [name]) ≠ none →
    ∃ perm, files.node place = some (.dir perm)

/-- There is no symbolic link at a place. -/
def Solid (files : Files) (place : Place) : Prop :=
  ∀ text, files.node place ≠ some (.link text)

section Steps

variable {files : Files} {process : Process} {follow : Bool}
variable {budget : Nat} {place : Place} {rest : List Component}

/-- How a walk with a budget goes on behind a symbolic link. -/
def behindLink (files : Files) (process : Process) (follow : Bool) :
    Nat → Place → List Component → Except Fault Place
  | 0 => fun place _ => .error (.tooManyLinks place)
  | budget + 1 => walk files process follow budget

theorem walk_eq_walkWith :
    walk files process follow budget =
      walkWith files process follow
        (behindLink files process follow budget) := by
  cases budget <;> rfl

@[simp]
theorem walk_nil : walk files process follow budget place [] = .ok place := by
  simp [walk_eq_walkWith, walkWith]

theorem walk_refused
    {fault : Fault}
    {step : Component}
    (refused : pass files process place step = .error fault) :
    walk files process follow budget place (step :: rest) =
      .error fault := by
  cases step <;> rw [walk_eq_walkWith, walkWith, refused]

/-- A name, unlike a slash, has to be searched for. -/
theorem walk_unsearched
    {fault : Fault}
    (refused : enter files process place = .error fault)
    (name : Name) :
    walk files process follow budget place (.name name :: rest) =
      .error fault :=
  walk_refused refused

/-- How a walk goes on with a step that it may make. -/
def walkStep (files : Files) (process : Process) (follow : Bool)
    (budget : Nat) (place : Place) (rest : List Component) :
    Component → Except Fault Place
  | .here => walk files process follow budget place rest
  | .slash => walk files process follow budget place rest
  | .up => walk files process follow budget place.dropLast rest
  | .long => .error (.nameTooLong place)
  | .name name =>
      match files.node (place ++ [name]) with
      | none =>
          if rest = [] then .ok (place ++ [name])
          else .error (.missing (place ++ [name]))
      | some (.link text) =>
          if rest = [] ∧ follow = false then .ok (place ++ [name])
          else behindLink files process follow budget
            (base text place) (steps text ++ rest)
      | some _ => walk files process follow budget (place ++ [name]) rest

theorem walk_cons
    {step : Component}
    (passed : pass files process place step = .ok ()) :
    walk files process follow budget place (step :: rest) =
      walkStep files process follow budget place rest step := by
  cases step <;> simp only [walk_eq_walkWith, walkWith, walkStep, passed]

theorem walk_slash
    (passed : pass files process place .slash = .ok ()) :
    walk files process follow budget place (.slash :: rest) =
      walk files process follow budget place rest :=
  walk_cons passed

variable (entered : enter files process place = .ok ())

include entered

theorem walk_name (name : Name) :
    walk files process follow budget place (.name name :: rest) =
      walkStep files process follow budget place rest (.name name) :=
  have passed : pass files process place (.name name) = .ok () := entered
  walk_cons passed

theorem walk_here :
    walk files process follow budget place (.here :: rest) =
      walk files process follow budget place rest :=
  have passed : pass files process place .here = .ok () := entered
  walk_cons passed

theorem walk_up :
    walk files process follow budget place (.up :: rest) =
      walk files process follow budget place.dropLast rest :=
  have passed : pass files process place .up = .ok () := entered
  walk_cons passed

theorem walk_long :
    walk files process follow budget place (.long :: rest) =
      .error (.nameTooLong place) :=
  have passed : pass files process place .long = .ok () := entered
  walk_cons passed

theorem walk_free
    {name : Name}
    (free : files.node (place ++ [name]) = none) :
    walk files process follow budget place (.name name :: rest) =
      if rest = [] then .ok (place ++ [name])
      else .error (.missing (place ++ [name])) := by
  rw [walk_name entered, walkStep, free]

theorem walk_link
    {name : Name}
    {text : Text}
    (linked : files.node (place ++ [name]) = some (.link text)) :
    walk files process follow budget place (.name name :: rest) =
      if rest = [] ∧ follow = false then .ok (place ++ [name])
      else behindLink files process follow budget
        (base text place) (steps text ++ rest) := by
  rw [walk_name entered, walkStep, linked]

theorem walk_node
    {name : Name}
    {node : Node}
    (found : files.node (place ++ [name]) = some node)
    (solid : ∀ text, node ≠ .link text) :
    walk files process follow budget place (.name name :: rest) =
      walk files process follow budget (place ++ [name]) rest := by
  rw [walk_name entered, walkStep, found]
  cases node with
  | dir perm => rfl
  | file perm content => rfl
  | link text => exact absurd rfl (solid text)

/-- The last name of a path, when it is not a symbolic link. -/
theorem walk_last
    {name : Name}
    {reached : Place}
    (arrived : place ++ [name] = reached)
    (solid : Solid files reached) :
    walk files process follow budget place [.name name] = .ok reached := by
  rcases found : files.node (place ++ [name]) with _ | node
  · simp [walk_free entered found, arrived]
  · have plain : ∀ text, node ≠ .link text := by
      rintro text rfl
      exact solid text (arrived ▸ found)
    simp [walk_node entered found plain, arrived]

end Steps

/-- What a table has at a place: nothing, a symbolic link or another node. -/
theorem node_cases (files : Files) (place : Place) :
    files.node place = none ∨
      (∃ text, files.node place = some (.link text)) ∨
      ∃ node, files.node place = some node ∧ ∀ text, node ≠ .link text := by
  rcases found : files.node place with _ | node
  · exact .inl rfl
  · cases node with
    | link text => exact .inr (.inl ⟨text, rfl⟩)
    | dir perm => exact .inr (.inr ⟨_, rfl, by simp⟩)
    | file perm content => exact .inr (.inr ⟨_, rfl, by simp⟩)

theorem enter_cases (files : Files) (process : Process) (place : Place) :
    (∃ fault, enter files process place = .error fault) ∨
      enter files process place = .ok () := by
  rcases entered : enter files process place with fault | done
  · exact .inl ⟨fault, rfl⟩
  · exact .inr rfl

theorem pass_cases
    (files : Files)
    (process : Process)
    (place : Place)
    (step : Component) :
    (∃ fault, pass files process place step = .error fault) ∨
      pass files process place step = .ok () := by
  rcases passed : pass files process place step with fault | done
  · exact .inl ⟨fault, rfl⟩
  · exact .inr rfl

/-- Nothing can be done at a place where nothing is. -/
theorem pass_free
    {files : Files}
    {place : Place}
    (free : files.node place = none)
    (process : Process)
    (step : Component) :
    pass files process place step = .error (.missing place) := by
  cases step <;> simp [pass, enter, free]

theorem enter_eq_ok
    {files : Files}
    {process : Process}
    {place : Place} :
    enter files process place = .ok () ↔
      ∃ perm, files.node place = some (.dir perm) ∧
        process.may perm .search = true := by
  unfold enter
  rcases found : files.node place with _ | node
  · simp
  · cases node with
    | dir perm => by_cases allowed : process.may perm .search <;> simp [allowed]
    | file perm content => simp
    | link text => simp

/-! ## Walking on from the end of a walk -/

/-- A walk from `place` along `back` once `front` has been walked. -/
def walkOn
    (files : Files)
    (process : Process)
    (follow : Bool)
    (left : Nat)
    (back : List Component) :
    Except Fault Place → Except Fault Place
  | .error fault => .error fault
  | .ok reached =>
      if files.node reached = none then .error (.missing reached)
      else walk files process follow left reached back

/-- One round of `walk_append`: the walk up to the first symbolic link. -/
theorem walk_append_round
    {files : Files}
    {process : Process}
    {budget : Nat}
    (behind : ∀ place front, ∃ left, ∀ follow back, back ≠ [] →
      behindLink files process follow budget place (front ++ back) =
        walkOn files process follow left back
          (behindLink files process true budget place front))
    (place : Place)
    (front : List Component) :
    ∃ left, ∀ follow back, back ≠ [] →
      walk files process follow budget place (front ++ back) =
        walkOn files process follow left back
          (walk files process true budget place front) := by
  induction front generalizing place with
  | nil =>
      refine ⟨budget, fun follow back nonempty => ?_⟩
      by_cases free : files.node place = none
      · obtain ⟨step, rest, rfl⟩ := List.exists_cons_of_ne_nil nonempty
        simp [walkOn, free, walk_refused (pass_free free process step)]
      · simp [walkOn, free]
  | cons step rest ih =>
      rcases pass_cases files process place step with ⟨fault, refused⟩ | entered
      · exact ⟨0, fun follow back _ => by
          simp [walk_refused refused, walkOn]⟩
      · cases step with
        | here =>
            simpa only [List.cons_append, walk_here entered] using ih place
        | slash =>
            simpa only [List.cons_append, walk_slash entered] using ih place
        | long =>
            exact ⟨0, fun follow back _ => by
              simp [walk_long entered, walkOn]⟩
        | up =>
            simpa only [List.cons_append, walk_up entered] using
              ih place.dropLast
        | name name =>
            rcases node_cases files (place ++ [name]) with
              free | ⟨text, linked⟩ | ⟨node, found, solid⟩
            · refine ⟨0, fun follow back nonempty => ?_⟩
              rw [List.cons_append, walk_free entered free,
                walk_free entered free]
              by_cases last : rest = [] <;> simp [last, nonempty, walkOn, free]
            · obtain ⟨left, same⟩ :=
                behind (base text place) (steps text ++ rest)
              refine ⟨left, fun follow back nonempty => ?_⟩
              rw [List.cons_append, walk_link entered linked,
                walk_link entered linked]
              simpa [nonempty] using same follow back nonempty
            · simpa only [List.cons_append, walk_node entered found solid]
                using ih (place ++ [name])

/-- A walk of a longer path goes on from where its beginning leads. -/
theorem walk_append
    (files : Files)
    (process : Process)
    (budget : Nat)
    (place : Place)
    (front : List Component) :
    ∃ left, ∀ follow back, back ≠ [] →
      walk files process follow budget place (front ++ back) =
        walkOn files process follow left back
          (walk files process true budget place front) := by
  induction budget generalizing place front with
  | zero =>
      exact walk_append_round
        (fun place front => ⟨0, fun follow back _ => rfl⟩) place front
  | succ budget ih =>
      exact @walk_append_round files process (budget + 1) ih place front

/-- One round of `walk_follow`. -/
theorem walk_follow_round
    {files : Files}
    {process : Process}
    {budget : Nat}
    {reached : Place}
    (free : files.node reached = none)
    (behind : ∀ place steps,
      behindLink files process false budget place steps = .ok reached →
        behindLink files process true budget place steps = .ok reached)
    (place : Place)
    (steps : List Component)
    (walked : walk files process false budget place steps = .ok reached) :
    walk files process true budget place steps = .ok reached := by
  induction steps generalizing place with
  | nil => simpa using walked
  | cons step rest ih =>
      rcases pass_cases files process place step with ⟨fault, refused⟩ | entered
      · simp [walk_refused refused] at walked
      · cases step with
        | here =>
            rw [walk_here entered] at walked ⊢
            exact ih place walked
        | slash =>
            rw [walk_slash entered] at walked ⊢
            exact ih place walked
        | long => simp [walk_long entered] at walked
        | up =>
            rw [walk_up entered] at walked ⊢
            exact ih place.dropLast walked
        | name name =>
            rcases node_cases files (place ++ [name]) with
              vacant | ⟨text, linked⟩ | ⟨node, found, solid⟩
            · rw [walk_free entered vacant] at walked ⊢
              exact walked
            · rw [walk_link entered linked] at walked ⊢
              by_cases last : rest = []
              · -- the walk would have stopped at the link, which is not free
                simp only [last, and_self, if_true, Except.ok.injEq] at walked
                rw [← walked, linked] at free
                cases free
              · simp only [last, false_and, if_false] at walked ⊢
                exact behind _ _ walked
            · rw [walk_node entered found solid] at walked ⊢
              exact ih (place ++ [name]) walked

/-- A walk to a free place does not depend on what is done with a last link. -/
theorem walk_follow
    {files : Files}
    {process : Process}
    {budget : Nat}
    {place reached : Place}
    {steps : List Component}
    (walked : walk files process false budget place steps = .ok reached)
    (free : files.node reached = none) :
    walk files process true budget place steps = .ok reached := by
  induction budget generalizing place steps with
  | zero =>
      exact @walk_follow_round files process 0 reached free
        (fun place steps stopped => by cases stopped) place steps walked
  | succ budget ih =>
      exact @walk_follow_round files process (budget + 1) reached free
        (fun place steps => ih) place steps walked

/-! ## Walks that follow every link -/

theorem Closed.solid_dropLast
    {files : Files}
    (closed : Closed files)
    {process : Process}
    {place : Place}
    (entered : enter files process place = .ok ()) :
    Solid files place.dropLast := by
  obtain ⟨perm, found, _⟩ := enter_eq_ok.mp entered
  rcases List.eq_nil_or_concat place with rfl | ⟨above, name, rfl⟩
  · simp [Solid, found]
  · rw [List.concat_eq_append] at found ⊢
    obtain ⟨upper, there⟩ := closed above name (by rw [found]; simp)
    simp [Solid, there]

/-- One round of `walk_solid`. -/
theorem walk_solid_round
    {files : Files}
    (closed : Closed files)
    (root : Solid files [])
    {process : Process}
    {budget : Nat}
    {reached : Place}
    (behind : ∀ place steps, Solid files place →
      behindLink files process true budget place steps = .ok reached →
        Solid files reached)
    (place : Place)
    (steps : List Component)
    (solid : Solid files place)
    (walked : walk files process true budget place steps = .ok reached) :
    Solid files reached := by
  induction steps generalizing place with
  | nil =>
      rw [walk_nil] at walked
      exact Except.ok.inj walked ▸ solid
  | cons step rest ih =>
      rcases pass_cases files process place step with ⟨fault, refused⟩ | entered
      · simp [walk_refused refused] at walked
      · cases step with
        | here => exact ih place solid (walk_here entered ▸ walked)
        | slash => exact ih place solid (walk_slash entered ▸ walked)
        | long => simp [walk_long entered] at walked
        | up =>
            exact ih place.dropLast (closed.solid_dropLast entered)
              (walk_up entered ▸ walked)
        | name name =>
            rcases node_cases files (place ++ [name]) with
              free | ⟨text, linked⟩ | ⟨node, found, plain⟩
            · rw [walk_free entered free] at walked
              by_cases last : rest = [] <;> simp [last] at walked
              simp [Solid, ← walked, free]
            · rw [walk_link entered linked] at walked
              simp only [Bool.true_eq_false, and_false, if_false] at walked
              refine behind _ _ ?_ walked
              unfold base
              split
              · exact root
              · exact solid
            · rw [walk_node entered found plain] at walked
              refine ih (place ++ [name]) ?_ walked
              simpa [Solid, found] using plain

/-- A walk that follows every link never ends at one. -/
theorem walk_solid
    {files : Files}
    (closed : Closed files)
    (root : Solid files [])
    {process : Process}
    {budget : Nat}
    {place reached : Place}
    {steps : List Component}
    (solid : Solid files place)
    (walked : walk files process true budget place steps = .ok reached) :
    Solid files reached := by
  induction budget generalizing place steps with
  | zero =>
      exact @walk_solid_round files closed root process 0 reached
        (fun place steps _ stopped => by cases stopped) place steps solid walked
  | succ budget ih =>
      exact @walk_solid_round files closed root process (budget + 1) reached
        (fun place steps => ih) place steps solid walked

/-! ## Walks in a table that has changed below a place -/

/-- Two tables that agree except at and below `origin`. -/
def SameOutside (origin : Place) (files later : Files) : Prop :=
  ∀ place, ¬ origin <+: place → later.node place = files.node place

/-- No entry of a directory lies on the way to the directory. -/
theorem not_below_entry
    (place : Place)
    (name : Name) :
    ¬ place ++ [name] <+: place := by
  intro below
  have longer : (place ++ [name]).length ≤ place.length := below.length_le
  rw [List.length_append, List.length_singleton] at longer
  omega

theorem not_below_dropLast
    {origin place : Place}
    (outside : ¬ origin <+: place) :
    ¬ origin <+: place.dropLast :=
  fun below => outside (below.trans (List.dropLast_prefix place))

theorem not_below_base
    {origin place : Place}
    (outside : ¬ origin <+: place)
    (text : Text) :
    ¬ origin <+: base text place := by
  unfold base
  split
  · intro below
    have empty : origin = [] := List.prefix_nil.mp below
    exact outside (empty ▸ List.nil_prefix)
  · exact outside

/-- The next name leaves the outside only at `origin` itself. -/
theorem not_below_concat
    {origin place : Place}
    (outside : ¬ origin <+: place)
    {name : Name}
    (elsewhere : place ++ [name] ≠ origin) :
    ¬ origin <+: place ++ [name] := by
  intro below
  rcases List.prefix_concat_iff.mp below with whole | shorter
  · exact elsewhere whole.symm
  · exact outside shorter

theorem pass_later
    {origin place : Place}
    {files later : Files}
    (same : SameOutside origin files later)
    (outside : ¬ origin <+: place)
    (process : Process)
    (step : Component) :
    pass later process place step = pass files process place step := by
  cases step <;> simp only [pass, enter, same place outside]

/-- A walk that did not stop at `origin` cannot tell the two tables apart. -/
def Unnoticed
    (origin : Place)
    (later : Files)
    (before after : Except Fault Place) : Prop :=
  before ≠ .error (.missing origin) →
    (before = .ok origin → Solid later origin) →
    after = before ∧
      ∀ reached, before = .ok reached →
        reached = origin ∨ ¬ origin <+: reached

/-- One round of `walk_later`. -/
theorem walk_later_round
    {origin : Place}
    {files later : Files}
    {process : Process}
    {follow : Bool}
    {budget : Nat}
    (free : files.node origin = none)
    (same : SameOutside origin files later)
    (behind : ∀ place steps, ¬ origin <+: place →
      Unnoticed origin later
        (behindLink files process follow budget place steps)
        (behindLink later process follow budget place steps))
    (place : Place)
    (steps : List Component)
    (outside : ¬ origin <+: place) :
    Unnoticed origin later
      (walk files process follow budget place steps)
      (walk later process follow budget place steps) := by
  induction steps generalizing place with
  | nil =>
      intro _ _
      simp only [walk_nil, Except.ok.injEq, forall_eq', true_and]
      exact .inr outside
  | cons step rest ih =>
      have samePass := pass_later same outside process step
      rcases pass_cases files process place step with ⟨fault, refused⟩ | entered
      · intro _ _
        simp [walk_refused refused, walk_refused (samePass.trans refused)]
      · have enteredLater := samePass.trans entered
        cases step with
        | here =>
            rw [walk_here entered, walk_here enteredLater]
            exact ih place outside
        | slash =>
            rw [walk_slash entered, walk_slash enteredLater]
            exact ih place outside
        | long =>
            rw [walk_long entered, walk_long enteredLater]
            exact fun _ _ => ⟨rfl, fun reached stopped => by cases stopped⟩
        | up =>
            rw [walk_up entered, walk_up enteredLater]
            exact ih place.dropLast (not_below_dropLast outside)
        | name name =>
            by_cases arrived : place ++ [name] = origin
            · rw [walk_free entered (arrived ▸ free), arrived]
              intro unmissed plain
              by_cases last : rest = []
              · subst last
                refine ⟨?_, fun reached stopped => ?_⟩
                · exact walk_last enteredLater arrived (plain rfl)
                · exact .inl (Except.ok.inj stopped).symm
              · simp [last] at unmissed
            · have beyond := not_below_concat outside arrived
              have sameThere := same _ beyond
              rcases node_cases files (place ++ [name]) with
                vacant | ⟨text, linked⟩ | ⟨node, found, solid⟩
              · rw [walk_free entered vacant,
                  walk_free enteredLater (sameThere.trans vacant)]
                refine fun _ _ => ⟨rfl, fun reached stopped => ?_⟩
                by_cases last : rest = [] <;> simp [last] at stopped
                exact .inr (stopped ▸ beyond)
              · rw [walk_link entered linked,
                  walk_link enteredLater (sameThere.trans linked)]
                by_cases stops : rest = [] ∧ follow = false
                · simp only [stops, and_self, if_true]
                  refine fun _ _ => ⟨rfl, fun reached stopped => ?_⟩
                  exact .inr (Except.ok.inj stopped ▸ beyond)
                · simp only [stops, if_false]
                  exact behind _ _ (not_below_base outside text)
              · rw [walk_node entered found solid,
                  walk_node enteredLater (sameThere.trans found) solid]
                exact ih (place ++ [name]) beyond

/--
A walk does not notice what has happened at and below a free place `origin`
at which it did not stop.
-/
theorem walk_later
    {origin place : Place}
    {files later : Files}
    (free : files.node origin = none)
    (same : SameOutside origin files later)
    (outside : ¬ origin <+: place)
    (process : Process)
    (follow : Bool)
    (budget : Nat)
    (steps : List Component) :
    Unnoticed origin later
      (walk files process follow budget place steps)
      (walk later process follow budget place steps) := by
  induction budget generalizing place steps with
  | zero =>
      refine @walk_later_round origin files later process follow 0 free same
        (fun place steps _ _ _ => ⟨rfl, fun reached stopped => ?_⟩)
        place steps outside
      cases stopped
  | succ budget ih =>
      exact @walk_later_round origin files later process follow (budget + 1)
        free same (fun place steps outside => ih outside steps)
        place steps outside

/-! ## Paths -/

theorem locate_nonempty
    {files : Files}
    {process : Process}
    {follow : Bool}
    {text : Text}
    {place : Place}
    (located : locate files process follow text = .ok place) :
    text ≠ [] := by
  rintro rfl
  simp [locate] at located

/-- The path of an entry makes a directory where it leads to the entry. -/
theorem locateNew_child
    (files : Files)
    (process : Process)
    (text : Text)
    (name : Name) :
    locateNew files process (child text name) =
      locate files process false (child text name) := by
  simp [locateNew, locate]

theorem locate_solid
    {files : Files}
    (closed : Closed files)
    (root : Solid files [])
    {process : Process}
    (home : Solid files process.cwd)
    {text : Text}
    {place : Place}
    (located : locate files process true text = .ok place) :
    Solid files place := by
  have nonempty := locate_nonempty located
  simp only [locate, nonempty, if_false] at located
  refine walk_solid closed root ?_ located
  unfold base
  split
  · exact root
  · exact home

/-- A slash changes nothing for a name after it. -/
theorem walkOn_slash
    (files : Files)
    (process : Process)
    (follow : Bool)
    (left : Nat)
    (name : Name)
    (front : Except Fault Place) :
    walkOn files process follow left [.name name]
        (walkOn files process true left [.slash] front) =
      walkOn files process follow left [.name name] front := by
  cases front with
  | error fault => rfl
  | ok reached =>
      rcases found : files.node reached with _ | node
      · simp [walkOn, found]
      · have passed : ∀ fault,
            pass files process reached .slash = .error fault →
              pass files process reached (.name name) = .error fault := by
          intro fault refused
          rw [← refused]
          cases node <;> simp_all [pass, enter]
        rcases pass_cases files process reached .slash with
          ⟨fault, refused⟩ | entered
        · simp [walkOn, found, walk_refused refused,
            walk_refused (passed fault refused)]
        · simp [walkOn, found, walk_slash entered]

/-- The path of an entry is walked from where the path of its parent leads. -/
theorem locate_child
    (files : Files)
    (process : Process)
    {text : Text}
    (nonempty : text ≠ []) :
    ∃ left, ∀ follow name,
      locate files process follow (child text name) =
        walkOn files process follow left [.name name]
          (locate files process true text) := by
  obtain ⟨left, same⟩ :=
    walk_append files process process.maxLinks (base text process.cwd)
      (components text)
  refine ⟨left, fun follow name => ?_⟩
  have walked := same follow [.name name] (by simp)
  simp only [locate, nonempty, child_ne_nil, base_child nonempty, if_false,
    steps_child, walked]
  rw [steps]
  split
  · rw [same true [.slash] (by simp), walkOn_slash]
  · rfl

/-- The entry of a directory that may be searched, unless a link is followed. -/
theorem locate_entry
    {files : Files}
    {process : Process}
    {text : Text}
    {place : Place}
    (located : locate files process true text = .ok place)
    (entered : enter files process place = .ok ())
    {follow : Bool}
    {name : Name}
    (stops : follow = false ∨ Solid files (place ++ [name])) :
    locate files process follow (child text name) = .ok (place ++ [name]) := by
  obtain ⟨perm, found, _⟩ := enter_eq_ok.mp entered
  obtain ⟨left, same⟩ :=
    locate_child files process (locate_nonempty located)
  rw [same, located]
  simp only [walkOn, found, reduceCtorEq, if_false]
  rcases stops with rfl | solid
  · rcases node_cases files (place ++ [name]) with
      free | ⟨target, linked⟩ | ⟨node, there, plain⟩
    · simp [walk_free entered free]
    · simp [walk_link entered linked]
    · simp [walk_node entered there plain]
  · exact walk_last entered rfl solid

theorem status_eq_ok
    {files : Files}
    {process : Process}
    {follow : Bool}
    {text : Text}
    {node : Node} :
    status files process follow text = .ok node ↔
      ∃ place, locate files process follow text = .ok place ∧
        files.node place = some node := by
  unfold status
  rcases located : locate files process follow text with fault | place
  · simp
  · rcases found : files.node place with _ | other <;> simp [found]

/-- A path beyond something that is not a searchable directory fails. -/
theorem enter_of_locate_child
    {files : Files}
    {process : Process}
    {text : Text}
    {name : Name}
    {follow : Bool}
    {stopped : Place}
    (nonempty : text ≠ [])
    (located : locate files process follow (child text name) = .ok stopped) :
    ∃ place, locate files process true text = .ok place ∧
      enter files process place = .ok () := by
  obtain ⟨left, same⟩ := locate_child files process nonempty
  rw [same] at located
  rcases walked : locate files process true text with fault | reached
  · simp [walked, walkOn] at located
  · rw [walked] at located
    refine ⟨reached, rfl, ?_⟩
    rcases enter_cases files process reached with ⟨fault, refused⟩ | entered
    · simp only [walkOn, walk_unsearched refused] at located
      split at located <;> cases located
    · exact entered

theorem status_child
    {files : Files}
    {process : Process}
    {text : Text}
    {name : Name}
    {follow : Bool}
    {node : Node}
    (nonempty : text ≠ [])
    (found : status files process follow (child text name) = .ok node) :
    ∃ place, locate files process true text = .ok place ∧
      enter files process place = .ok () := by
  obtain ⟨place, located, _⟩ := status_eq_ok.mp found
  exact enter_of_locate_child nonempty located

/-- The path of an entry that is no link leads nowhere but to the entry. -/
theorem locate_child_unique
    {files : Files}
    {process : Process}
    {text : Text}
    {name : Name}
    {follow : Bool}
    {place reached : Place}
    (above : locate files process true text = .ok place)
    (solid : Solid files (place ++ [name]))
    (located : locate files process follow (child text name) = .ok reached) :
    reached = place ++ [name] := by
  obtain ⟨directory, again, entered⟩ :=
    enter_of_locate_child (locate_nonempty above) located
  rw [above, Except.ok.injEq] at again
  subst again
  rw [locate_entry above entered (.inr solid), Except.ok.injEq] at located
  exact located.symm

section Later

variable {origin : Place} {files later : Files} {process : Process}
variable (free : files.node origin = none)
variable (same : SameOutside origin files later)
variable (home : ¬ origin <+: process.cwd)

include free same home

theorem locate_unnoticed (follow : Bool) (text : Text) :
    Unnoticed origin later
      (locate files process follow text)
      (locate later process follow text) := by
  unfold locate
  split
  · exact fun _ _ => ⟨rfl, fun reached stopped => by cases stopped⟩
  · exact walk_later free same (not_below_base home text) process follow _ _

theorem locate_later
    {follow : Bool}
    {text : Text}
    {place : Place}
    (located : locate files process follow text = .ok place)
    (elsewhere : place ≠ origin) :
    locate later process follow text = .ok place ∧ ¬ origin <+: place := by
  have unnoticed := locate_unnoticed free same home follow text
  rw [located] at unnoticed
  obtain ⟨again, outside⟩ :=
    unnoticed (by simp)
      (fun stopped => absurd (Except.ok.inj stopped) elsewhere)
  exact ⟨again, (outside place rfl).resolve_left elsewhere⟩

/-- What a path leads to is still there. -/
theorem located_later
    {follow : Bool}
    {text : Text}
    {place : Place}
    {node : Node}
    (located : locate files process follow text = .ok place)
    (found : files.node place = some node) :
    locate later process follow text = .ok place ∧
      later.node place = some node ∧ ¬ origin <+: place := by
  have elsewhere : place ≠ origin := by
    rintro rfl
    rw [free] at found
    cases found
  obtain ⟨again, outside⟩ := locate_later free same home located elsewhere
  exact ⟨again, (same place outside).trans found, outside⟩

/-- The path that made a directory leads to it. -/
theorem locate_made
    {text : Text}
    {perm : Perm}
    (located : locateNew files process text = .ok origin)
    (made : later.node origin = some (.dir perm)) :
    locate later process true text = .ok origin := by
  have nonempty : text ≠ [] := by
    rintro rfl
    simp [locateNew] at located
  simp only [locateNew, nonempty, if_false] at located
  have walked : walk later process true process.maxLinks
      (base text process.cwd) (components text) = .ok origin := by
    have unnoticed := walk_later free same (not_below_base home text) process
      true process.maxLinks (components text)
    rw [walk_follow located free] at unnoticed
    exact (unnoticed (by simp) fun _ => by simp [Solid, made]).1
  rw [locate, if_neg nonempty, steps]
  split
  · obtain ⟨left, onward⟩ := walk_append later process process.maxLinks
      (base text process.cwd) (components text)
    have passed : pass later process origin .slash = .ok () := by
      simp [pass, made]
    rw [onward true [.slash] (by simp), walked]
    simp [walkOn, made, walk_slash passed]
  · exact walked

/-- A path that led nowhere, without stopping at `origin`, still does. -/
theorem status_fails_later
    {follow : Bool}
    {text : Text}
    {fault : Fault}
    (failed : status files process follow text = .error fault)
    (elsewhere : fault ≠ .missing origin) :
    status later process follow text = .error fault := by
  have unnoticed := locate_unnoticed free same home follow text
  unfold status at failed ⊢
  rcases located : locate files process follow text with other | place
  · rw [located] at failed unnoticed
    obtain rfl := Except.error.inj failed
    obtain ⟨again, _⟩ :=
      unnoticed (by simpa using elsewhere) (fun stopped => by cases stopped)
    rw [again]
  · rw [located] at failed
    rcases found : files.node place with _ | node
    · simp only [found, Except.error.injEq] at failed
      subst failed
      have apart : place ≠ origin := by
        rintro rfl
        exact elsewhere rfl
      obtain ⟨again, outside⟩ := locate_later free same home located apart
      simp [again, same place outside, found]
    · simp [found] at failed

end Later

/-! ## What the calls change -/

theorem SameOutside.trans
    {origin : Place}
    {files middle later : Files}
    (first : SameOutside origin files middle)
    (second : SameOutside origin middle later) :
    SameOutside origin files later :=
  fun place outside => (second place outside).trans (first place outside)

theorem SameOutside.widen
    {origin below : Place}
    {files later : Files}
    (same : SameOutside below files later)
    (inside : origin <+: below) :
    SameOutside origin files later :=
  fun place outside => same place fun under => outside (inside.trans under)

/-- Two tables that agree except at `place`. -/
def SameElsewhere (place : Place) (files later : Files) : Prop :=
  ∀ other, other ≠ place → later.node other = files.node other

theorem SameElsewhere.trans
    {place : Place}
    {files middle later : Files}
    (first : SameElsewhere place files middle)
    (second : SameElsewhere place middle later) :
    SameElsewhere place files later :=
  fun other apart => (second other apart).trans (first other apart)

theorem SameElsewhere.sameOutside
    {place : Place}
    {files later : Files}
    (same : SameElsewhere place files later) :
    SameOutside place files later := by
  intro other outside
  refine same other ?_
  rintro rfl
  exact outside List.prefix_rfl

theorem sameElsewhere_put (files : Files) (place : Place) (node : Node) :
    SameElsewhere place files (files.put place node) :=
  fun _ apart => files.node_put_of_ne apart node

theorem makeEntry_eq_ok
    {files later : Files}
    {process : Process}
    {located : Except Fault Place}
    {node : Node} :
    makeEntry files process located node = .ok later ↔
      ∃ place perm, located = .ok place ∧
        files.node place = none ∧
        files.node place.dropLast = some (.dir perm) ∧
        process.may perm .write = true ∧
        files.put place node = later := by
  unfold makeEntry
  rcases located with fault | place
  · simp
  · rcases here : files.node place with _ | present
    · unfold create
      rcases above : files.node place.dropLast with _ | upper
      · simp [here, above]
      · cases upper with
        | dir perm =>
            by_cases allowed : process.may perm .write <;>
              simp [here, above, allowed]
        | file perm content => simp [here, above]
        | link target => simp [here, above]
    · simp [here]

theorem openWrite_ok
    {files later : Files}
    {process : Process}
    {text : Text}
    {mode : BitVec 9}
    {place : Place}
    (opened : openWrite files process text mode = .ok (place, later)) :
    locate files process true text = .ok place ∧
      (∃ perm, later = files.put place (.file perm [])) ∧
      (files.node place = none →
        ∃ perm, files.node place.dropLast = some (.dir perm) ∧
          process.may perm .write = true) := by
  unfold openWrite at opened
  rcases located : locate files process true text with fault | reached
  · simp [located] at opened
  · simp only [located] at opened
    rcases here : files.node reached with _ | present
    · simp only [here, create] at opened
      rcases above : files.node reached.dropLast with _ | upper
      · simp [above, Except.map] at opened
      · cases upper with
        | dir perm =>
            by_cases allowed : process.may perm .write <;>
              simp [above, allowed, Except.map] at opened
            obtain ⟨rfl, rfl⟩ := opened
            exact ⟨rfl, ⟨_, rfl⟩, fun _ => ⟨perm, above, allowed⟩⟩
        | file perm content => simp [above, Except.map] at opened
        | link target => simp [above, Except.map] at opened
    · cases present with
      | dir perm => simp [here] at opened
      | link target => simp [here] at opened
      | file perm content =>
          by_cases allowed : process.may perm .write <;>
            simp [here, allowed] at opened
          obtain ⟨rfl, rfl⟩ := opened
          exact ⟨rfl, ⟨_, rfl⟩, fun vacant => by simp [here] at vacant⟩

/-- A path to a free place in a writable directory opens a new file. -/
theorem openWrite_new
    {files : Files}
    {process : Process}
    {text : Text}
    {place : Place}
    {perm : Perm}
    (located : locate files process true text = .ok place)
    (vacant : files.node place = none)
    (above : files.node place.dropLast = some (.dir perm))
    (allowed : process.may perm .write = true)
    (mode : BitVec 9) :
    openWrite files process text mode =
      .ok (place, files.put place (.file (process.masked mode) [])) := by
  simp [openWrite, located, vacant, create, above, allowed, Except.map]

theorem chmod_ok
    {files later : Files}
    {process : Process}
    {text : Text}
    {mode : BitVec 9}
    (changed : chmod files process text mode = .ok later) :
    ∃ place node, locate files process true text = .ok place ∧
      later = files.put place node := by
  unfold chmod at changed
  rcases located : locate files process true text with fault | place
  · simp [located] at changed
  · simp only [located] at changed
    rcases here : files.node place with _ | present
    · simp [here] at changed
    · cases present with
      | link target => simp [here] at changed
      | dir perm =>
          by_cases allowed : process.root ∨ perm.cls = .owner
          · simp only [here, allowed, if_true, Except.ok.injEq] at changed
            exact ⟨place, _, rfl, changed.symm⟩
          · simp [here, allowed] at changed
      | file perm content =>
          by_cases allowed : process.root ∨ perm.cls = .owner
          · simp only [here, allowed, if_true, Except.ok.injEq] at changed
            exact ⟨place, _, rfl, changed.symm⟩
          · simp [here, allowed] at changed

/-- A `write` changes the content of its file at most. -/
theorem writeAt_cases
    (files : Files)
    (place : Place)
    (offset : Nat)
    (data : List UInt8) :
    writeAt files place offset data = files ∨
      ∃ perm content, writeAt files place offset data =
        files.put place (.file perm content) := by
  unfold writeAt
  split
  · exact .inr ⟨_, _, rfl⟩
  · exact .inl rfl

theorem opendir_ok
    {files : Files}
    {process : Process}
    {text : Text}
    {names : List Name}
    (opened : opendir files process text = .ok names) :
    ∃ place perm, locate files process true text = .ok place ∧
      files.node place = some (.dir perm) ∧
      process.may perm .read = true ∧
      names = entries files place := by
  unfold opendir at opened
  rcases located : locate files process true text with fault | place
  · simp [located] at opened
  · simp only [located] at opened
    split at opened
    · rename_i perm found
      split at opened
      · rename_i allowed
        exact ⟨place, perm, rfl, found, allowed,
          (Except.ok.inj opened).symm⟩
      · cases opened
    · cases opened
    · cases opened

/-- `open` fails where `stat` does. -/
theorem openRead_fails
    {files : Files}
    {process : Process}
    {text : Text}
    {fault : Fault}
    (failed : stat files process text = .error fault) :
    ∃ fault, openRead files process text = .error fault := by
  unfold stat status at failed
  unfold openRead
  rcases located : locate files process true text with other | place
  · exact ⟨other, rfl⟩
  · rcases found : files.node place with _ | node
    · exact ⟨.missing place, by simp [found]⟩
    · simp [located, found] at failed

theorem openRead_file
    {files : Files}
    {process : Process}
    {text : Text}
    {place : Place}
    {perm : Perm}
    {content : List UInt8}
    (located : locate files process true text = .ok place)
    (found : files.node place = some (.file perm content))
    (allowed : process.may perm .read = true) :
    openRead files process text = .ok place := by
  simp [openRead, located, found, allowed]

/-- How a path comes to end at a missing place: above it, there, or by a
link. -/
theorem stat_child_missing
    {files : Files}
    {process : Process}
    {text : Text}
    {name : Name}
    {missing : Place}
    (nonempty : text ≠ [])
    (failed : stat files process (child text name) =
      .error (.missing missing)) :
    stat files process text = .error (.missing missing) ∨
      ∃ place, locate files process true text = .ok place ∧
        enter files process place = .ok () ∧
        (missing = place ++ [name] ∨
          ∃ target, files.node (place ++ [name]) = some (.link target)) := by
  obtain ⟨left, same⟩ := locate_child files process nonempty
  rw [stat, status, same] at failed
  rcases located : locate files process true text with fault | place
  · left
    simp only [located, walkOn, Except.error.injEq] at failed
    simp [stat, status, located, failed]
  · rw [located] at failed
    by_cases vacant : files.node place = none
    · left
      simp only [walkOn, vacant, if_true, Except.error.injEq] at failed
      simp [stat, status, located, vacant, failed]
    · simp only [walkOn, vacant, if_false] at failed
      rcases enter_cases files process place with ⟨fault, refused⟩ | entered
      · simp only [walk_unsearched refused, Except.error.injEq] at failed
        subst failed
        unfold enter at refused
        split at refused
        · rename_i free
          exact absurd free vacant
        · split at refused <;> cases refused
        · cases refused
      · refine .inr ⟨place, rfl, entered, ?_⟩
        rcases node_cases files (place ++ [name]) with
          free | ⟨target, linked⟩ | ⟨node, found, solid⟩
        · simp only [walk_free entered free, if_true, free,
            Except.error.injEq, Fault.missing.injEq] at failed
          exact .inl failed.symm
        · exact .inr ⟨target, linked⟩
        · simp [walk_node entered found solid, found] at failed

end OSCourse.Library.FileTree
