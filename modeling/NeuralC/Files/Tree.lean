import NeuralC.Files.Disk

/-!
# NeuralC.Files.Tree

A file system as a value.  Files and directories are known by their place, the
names that lead to them from the root; the root itself is always a directory.
The operations answer as a disk does: a path leads through existing
directories only, a directory is not read or overwritten, a file is not a
directory, and names and paths have a greatest length.
-/

namespace NeuralC

/-- The names that lead from the root to an entry. -/
abbrev Place := List String

/-- What stands at a place. -/
inductive TreeEntry where
  | file (bytes : ByteArray)
  | directory

/-- Files and directories by place. -/
structure Tree where
  entries : List (Place × TreeEntry)

namespace Tree

/-- The tree of the root alone. -/
def empty : Tree := ⟨[]⟩

/-- What stands at a place. -/
def get? (t : Tree) (place : Place) : Option TreeEntry :=
  if place = [] then some .directory else (t.entries.find? (·.1 = place)).map (·.2)

/-- Puts an entry into a list of entries. -/
def put (place : Place) (e : TreeEntry) : List (Place × TreeEntry) → List (Place × TreeEntry)
  | [] => [(place, e)]
  | (other, old) :: rest =>
    if other = place then (other, e) :: rest else (other, old) :: put place e rest

/-- The tree with an entry at a place. -/
def set (t : Tree) (place : Place) (e : TreeEntry) : Tree := ⟨put place e t.entries⟩

/-! ## Looking up -/

/-- The most bytes in a name. -/
def nameLimit : Nat := 255

/-- The most bytes in a path. -/
def pathLimit : Nat := 4095

/-- The place that names lead to.  Every name needs a directory to start
from. -/
def follow (t : Tree) (start : Place) : List String → Except FileCause Place
  | [] => .ok start
  | name :: names =>
    match t.get? start with
    | none => .error .notFound
    | some (.file _) => .error .notDirectory
    | some .directory =>
      if name = "." then follow t start names
      else if name = ".." then follow t start.dropLast names
      else if nameLimit < name.utf8ByteSize then .error .nameTooLong
      else follow t (start ++ [name]) names

/-- The names of a path. -/
def names (path : String) : List String := (Path.pieces path).filter (· ≠ "")

/-- Why a path is refused before any of its names is looked up. -/
def pathFault? (path : String) : Option FileCause :=
  if Char.ofNat 0 ∈ path.toList then some .nulInName
  else if path = "" then some .notFound
  else if pathLimit < path.utf8ByteSize then some .nameTooLong
  else none

/-- The place that names taken from a path lead to. -/
def walk (t : Tree) (path : String) (names : List String) : Except FileCause Place :=
  match pathFault? path with
  | some cause => .error cause
  | none => t.follow [] names

/-- The place of a path. -/
def locate (t : Tree) (path : String) : Except FileCause Place := t.walk path (names path)

/-- The place of a path of something that exists; a slash at the end asks for
a directory. -/
def locateExisting (t : Tree) (path : String) : Except FileCause (Place × TreeEntry) :=
  match t.walk path (names path ++ if path.endsWith "/" then ["."] else []) with
  | .error cause => .error cause
  | .ok place =>
    match t.get? place with
    | none => .error .notFound
    | some e => .ok (place, e)

/-! ## Reading and writing -/

/-- The contents of a file. -/
def read (t : Tree) (path : String) : Except FileCause ByteArray :=
  match t.locateExisting path with
  | .error cause => .error cause
  | .ok (_, .directory) => .error .isDirectory
  | .ok (_, .file bytes) => .ok bytes

/-- The directory above the last name of a path. -/
def locateAbove (t : Tree) (path : String) : Except FileCause Place :=
  t.walk path ((names path).dropLast ++ ["."])

/-- The tree with a file written.  A slash at the end names a directory,
whether or not there is one. -/
def write (t : Tree) (path : String) (bytes : ByteArray) : Except FileCause Tree :=
  if path.endsWith "/" then
    match t.locateAbove path with
    | .error cause => .error cause
    | .ok _ => .error .isDirectory
  else
    match t.locate path with
    | .error cause => .error cause
    | .ok place =>
      match t.get? place with
      | some .directory => .error .isDirectory
      | _ => .ok (t.set place (.file bytes))

/-- The tree with a new directory. -/
def makeDirectory (t : Tree) (path : String) : Except FileCause Tree :=
  match t.locate path with
  | .error cause => .error cause
  | .ok place => if (t.get? place).isSome then .error .exists else .ok (t.set place .directory)

/-- Whether a path is an existing directory. -/
def isDirectory (t : Tree) (path : String) : Bool :=
  match t.locateExisting path with
  | .ok (_, .directory) => true
  | _ => false

/-- A step that replaces the tree when it succeeds. -/
def update (f : Tree → Except FileCause Tree) : StateM Tree (Except FileCause Unit) := fun t =>
  match f t with
  | .ok t' => (.ok (), t')
  | .error cause => (.error cause, t)

/-- The operations on a tree. -/
def disk : Disk (StateM Tree) where
  read path := fun t => (t.read path, t)
  write path bytes := update (·.write path bytes)
  makeDirectory path := update (·.makeDirectory path)
  isDirectory path := fun t => (t.isDirectory path, t)

/-- The tree with a file, and the directories above it, where that is
possible. -/
def add (t : Tree) (path : String) (bytes : ByteArray) : Tree :=
  let above := ((Path.parent? path).map Path.ancestors).getD []
  let (_, t) := disk.makeDirectories above t
  (disk.write path bytes t).2

/-- The tree of some files. -/
def ofFiles (files : List (String × ByteArray)) : Tree :=
  files.foldl (fun t (path, bytes) => t.add path bytes) empty

/-- The files with their paths, in the order of the paths. -/
def files (t : Tree) : List (String × ByteArray) :=
  let all := t.entries.filterMap fun (place, e) =>
    match e with
    | .file bytes => some ("/".intercalate place, bytes)
    | .directory => none
  all.mergeSort fun a b => !decide (b.1 < a.1)

end Tree

end NeuralC
