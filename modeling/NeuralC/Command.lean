import NeuralC.Command.Options
import NeuralC.Compile
import NeuralC.Files.Disk
import NeuralC.Text.Plain

/-!
# NeuralC.Command

The compiler as a command: it reads a model and, where asked, calibration
data, compiles the model, and prints the result as one file or writes all
files below a directory.
-/

namespace NeuralC.Command

variable {m : Type → Type} [Monad m]

/-- A run that can fail; graph and session stay as they were when it
stopped. -/
abbrev Run (m : Type → Type) := ExceptT Failure (StateT Workspace m)

/-- A step of a compilation within a run. -/
def work {α : Type} (w : Work α) : Run m α := fun s =>
  match w s with
  | .ok a s => return (.ok a, s)
  | .error f s => return (.error f, s)

/-- An operation on files within a run. -/
def onDisk {α : Type} (act : m (Except Diagnostic α)) : Run m α := fun s => do
  match ← act with
  | .ok a => return (.ok a, s)
  | .error d => return (.error (.reported d), s)

/-- The directory for a model when none is given. -/
def defaultDirectory (model : String) : String :=
  Path.join (Path.join "out" "nncc") ((Path.stem? model).getD "model")

/-- Reads calibration data for the graph at work. -/
def loadCalibration (disk : Disk m) (path : String) : Run m Calibration.Table := do
  let text ← onDisk (disk.readText path)
  work (do readCalibration text (← Work.graph).inputName)

/-- Compiles a model; the value is what is printed. -/
def execute (disk : Disk m) (o : Options) : Run m String := do
  if let name :: _ := o.modules then
    throw (.reported (.structural name .moduleNotSupported .importing))
  work (readModel (← onDisk (disk.readText o.model)))
  let layers := (← work Work.graph).size
  work (Work.note .info s!"Loaded {layers} layers from {o.model}")
  let table ← match o.calibration with
    | none => pure none
    | some path => some <$> loadCalibration disk path
  let c ← work (compile o.format table)
  let whole := c.bundle.singleFile
  if o.singleFile then return whole
  let dir := o.output.getD (defaultDirectory o.model)
  onDisk (disk.writeBundle dir c.bundle)
  onDisk (disk.writeFile (Path.join dir "full_model.h") whole)
  work (Work.note .info s!"Wrote {c.bundle.size + 1} files to {dir}")
  return ""

/-- What a command leaves behind beside files. -/
structure Outcome where
  exit : Nat
  output : String
  log : List LogRecord
deriving DecidableEq, Repr

/-- A text with the lines after its first indented. -/
def indented (cs : List Char) : List Char :=
  cs.flatMap fun c => if c = '\n' then "\n    ".toList else [c]

/-- The lines that show a log record, without terminal sequences. -/
def shownLines (r : LogRecord) : List String :=
  (Text.lines (Text.plain (indented r.text.toList ++ ['\n']))).map String.ofList

/-- The reports of a command, each by its first line. -/
def Outcome.errors (o : Outcome) : List String :=
  (o.log.filter fun r => r.level = .error).map fun r => (shownLines r).headD ""

/-- Whether a log record is shown: debugging records from verbosity 1 on, all
from 2 on. -/
def isShown (verbosity : Nat) (r : LogRecord) : Bool :=
  match r.level with
  | .trace => 2 ≤ verbosity
  | .debug => 1 ≤ verbosity
  | _ => true

/-- The outcome of a run.  A failure without report leaves no record. -/
def conclude (s : Session) : Except Failure String → Outcome
  | .ok output => ⟨0, output, s.log⟩
  | .error (.reported d) =>
    ⟨1, "", (s.note .error s!"{d.stage.name} failed: {d.message}").log⟩
  | .error _ => ⟨101, "", s.log⟩

/-- What the version switch prints. -/
def versionText : String := "nncc 0.1.0\n"

/-- What the help switch prints. -/
def helpText : String := String.join (List.map (· ++ "\n") [
  "Compile a neural network layer graph to C",
  "",
  "Usage: nncc [OPTIONS] <MODEL>",
  "",
  "Arguments:",
  "  <MODEL>  Model description in the .nnir text format",
  "",
  "Options:",
  "  -q, --quantize <QUANTIZE>        Number representation of the generated code",
  "  -c, --calibration <CALIBRATION>  Calibration table (CSV) with scale factors per layer",
  "  -o, --output <OUTPUT>            Output directory",
  "      --single-file                Print the single-file output instead of writing files",
  "  -v...                            Increase log verbosity",
  "  -h, --help                       Print help",
  "  -V, --version                    Print version"])

/-- Runs a command line. -/
def run (disk : Disk m) (args : List String) : m Outcome := do
  match Options.read args with
  | .error .version => return ⟨0, versionText, []⟩
  | .error .help => return ⟨0, helpText, []⟩
  | .error (.fault _) => return ⟨2, "", []⟩
  | .ok o =>
    let (result, w) ← execute disk o ⟨.empty, {}⟩
    return conclude w.session result

end NeuralC.Command
