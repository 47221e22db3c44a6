import NeuralC.Text.Blank

/-!
# NeuralC.Files.Path

Paths of files.  A path is a text of names between slashes; empty names, and
single dots behind the first name, mean nothing.
-/

namespace NeuralC.Path

/-- The texts between slashes. -/
def pieces (path : String) : List String := (Text.fields '/' path.toList).map String.ofList

/-- Whether a piece behind the first means nothing. -/
def isVoid (piece : String) : Bool := piece == "" || piece == "."

/-- A path below a directory.  A path that starts with a slash stands for
itself. -/
def join (dir path : String) : String :=
  if path.startsWith "/" ∨ dir = "" then path
  else if dir.endsWith "/" then dir ++ path
  else dir ++ "/" ++ path

/-- Pieces, the last first, without those at the end that mean nothing. -/
def trimmed : List String → List String
  | piece :: next :: rest =>
    if isVoid piece then trimmed (next :: rest) else piece :: next :: rest
  | short => short

/-- The path of pieces, the last first. -/
def spell (reversed : List String) : String :=
  if reversed = [""] then "/" else "/".intercalate reversed.reverse

/-- The path without its last name; none when it has no name. -/
def parent? (path : String) : Option String :=
  match trimmed (pieces path).reverse with
  | [] | [""] => none
  | _ :: rest => some (spell (trimmed rest))

/-- The paths that lead to a piece, the longest first, for pieces of which the
last comes first. -/
def leading : List String → List String
  | [] => []
  | [piece] => if piece = "" then [] else [piece]
  | piece :: next :: rest =>
    if isVoid piece then leading (next :: rest)
    else spell (piece :: next :: rest) :: leading (next :: rest)

/-- The path and the directories above it, the longest path first. -/
def ancestors (path : String) : List String := leading (pieces path).reverse

/-- The name of the file, unless it leads back up. -/
def fileName? (path : String) : Option String :=
  match trimmed (pieces path).reverse with
  | [] | [""] | ["."] => none
  | piece :: _ => if piece = ".." then none else some piece

/-- The name of the file up to its last dot, unless that is its first
character. -/
def stem? (path : String) : Option String :=
  (fileName? path).map fun name =>
    match Text.cutLast '.' name.toList with
    | some (front, _) => if front.isEmpty then name else String.ofList front
    | none => name

end NeuralC.Path
