import NeuralC.Command

/-!
# NeuralC.Main

The program: the command on the files of the system.
-/

namespace NeuralC.Main

/-- Why the system refused an operation. -/
def causeOf : IO.Error → FileCause
  | .noFileOrDirectory .. => .notFound
  | .alreadyExists .. => .exists
  | .inappropriateType _ code _ =>
    if code = 20 then .notDirectory else if code = 21 then .isDirectory
    else .other s!"os error {code}"
  | .invalidArgument _ code _ =>
    if code = 36 then .nameTooLong else .other s!"os error {code}"
  | e => .other (toString e)

/-- An operation with its refusal as a value. -/
def attempt {α : Type} (act : IO α) : IO (Except FileCause α) := do
  try return .ok (← act) catch e => return .error (causeOf e)

/-- Whether a path is a directory: its own dot exists exactly then. -/
def isDirectory (path : String) : IO Bool := do
  match ← attempt (IO.FS.createDir (path ++ "/.")) with
  | .error .exists => return true
  | _ => return false

/-- The files of the system. -/
def disk : Disk IO where
  read path := attempt (IO.FS.readBinFile path)
  write path bytes := attempt (IO.FS.writeBinFile path bytes)
  makeDirectory path := attempt (IO.FS.createDir path)
  isDirectory := isDirectory

/-- Shows a log record. -/
def showRecord (r : LogRecord) : IO Unit := do
  let lines := Command.shownLines r
  let first := lines.headD ""
  IO.eprintln s!"[{r.level.name}] {first}"
  for line in lines.tail do
    IO.eprintln line

/-- Runs the command and shows its log. -/
def run (args : List String) (verbosity : Nat) : IO UInt32 := do
  let outcome ← Command.run disk args
  for r in outcome.log.filter (Command.isShown verbosity) do
    showRecord r
  IO.print outcome.output
  return UInt32.ofNat outcome.exit

end NeuralC.Main

/-- Compiles a model as the arguments say. -/
def main (args : List String) : IO UInt32 := do
  match NeuralC.Command.Options.read args with
  | .error (.fault f) =>
    IO.eprintln s!"error: {f.message}"
    NeuralC.Main.run args 0
  | .ok o => NeuralC.Main.run args o.verbosity
  | .error _ => NeuralC.Main.run args 0
