import NeuralC.Diagnostic.Cause

/-!
# NeuralC.Diagnostic

What the compiler reports when it cannot go on.  A `Diagnostic` says where
(a layer, a line, a template or a file) and why; `Diagnostic.stage` says which
stage of the compilation reports it.

A `Failure` is either such a report or a stop without one: the use of something
that is not there, an element beyond the end of a list or a node that left the
graph; a size that is too large to be computed; or an order of the graph that a
pass has broken.
-/

namespace NeuralC

/-- The stages of a compilation. -/
inductive Stage where
  | importing
  | annotating
  | optimizing
  | validating
  | quantizing
  | allocating
  | emitting
deriving DecidableEq, Repr

/-- The word for a stage. -/
def Stage.name : Stage → String
  | importing => "import"
  | annotating => "annotate"
  | optimizing => "optimize"
  | validating => "validate"
  | quantizing => "quantize"
  | allocating => "allocate"
  | emitting => "emit"

/-- A report of what went wrong. -/
inductive Diagnostic where
  /-- A malformed graph, or a change to it that is not possible.  Such reports come
  from several stages and carry theirs. -/
  | structural (layer : String) (cause : StructuralCause) (stage : Stage)
  /-- A layer that breaks a rule. -/
  | validation (layer : String) (rule : Rule) (cause : ValidationCause)
  /-- A layer that cannot be annotated or quantized. -/
  | quantization (layer : String) (cause : QuantizationCause)
  /-- A layer output that cannot be placed. -/
  | allocation (layer : String) (cause : AllocationCause)
  /-- A line of calibration data. -/
  | calibration (line : Nat) (cause : CalibrationCause)
  /-- A line of a model description; line 0 is the description as a whole. -/
  | parse (line : Nat) (cause : ModelCause)
  /-- A source file that cannot be rendered. -/
  | render (template : String) (cause : RenderCause)
  /-- A file that cannot be written. -/
  | output (path : String) (cause : FileCause)
  /-- A file that cannot be read. -/
  | file (cause : FileCause)
deriving DecidableEq, Repr

namespace Diagnostic

/-- A structural report from building, checking or simplifying the graph. -/
def editing (layer : String) (cause : StructuralCause) : Diagnostic :=
  structural layer cause .optimizing

/-- The report as one text. -/
def message : Diagnostic → String
  | structural layer cause _ => s!"Structural error at layer '{layer}': {cause.message}"
  | validation layer rule cause =>
    s!"Validation failed ({rule.name}) for layer '{layer}': {cause.message}"
  | quantization layer cause => s!"Quantization failed for layer '{layer}': {cause.message}"
  | allocation layer cause => s!"Allocation failed for layer '{layer}': {cause.message}"
  | calibration line cause => s!"Calibration data line {line}: {cause.message}"
  | parse line cause => s!"Model description line {line}: {cause.message}"
  | render template cause => s!"Rendering template '{template}' failed: {cause.message}"
  | output path cause => s!"Writing '{path}' failed: {cause.message}"
  | file cause => s!"I/O error: {cause.message}"

/-- The layer a report is about. -/
def layer? : Diagnostic → Option String
  | structural layer _ _ | validation layer _ _ | quantization layer _ | allocation layer _ =>
    some layer
  | _ => none

/-- The stage that reports. -/
def stage : Diagnostic → Stage
  | structural _ _ stage => stage
  | validation .. => .validating
  | quantization .. => .quantizing
  | allocation .. => .allocating
  | calibration .. => .annotating
  | parse .. | file .. => .importing
  | render .. | output .. => .emitting

/-- The report attributed to another stage, where its kind has no fixed one. -/
def inStage (stage : Stage) : Diagnostic → Diagnostic
  | structural layer cause _ => structural layer cause stage
  | d => d

end Diagnostic

/-- How a computation can fail. -/
inductive Failure where
  /-- With a report. -/
  | reported (diagnostic : Diagnostic)
  /-- By using an element or a node that does not exist. -/
  | outOfRange
  /-- By computing a size that is too large. -/
  | overflow
  /-- By leaving a node in front of one that it reads. -/
  | disorder
deriving DecidableEq, Repr

namespace Failure

/-- A failure with its report attributed to another stage. -/
def inStage (stage : Stage) : Failure → Failure
  | reported d => reported (d.inStage stage)
  | f => f

end Failure

/-- Turns a report into a failure. -/
def orFail {α : Type} : Except Diagnostic α → Except Failure α
  | .ok a => .ok a
  | .error d => .error (.reported d)

/-- The value that must exist. -/
def present {α : Type} : Option α → Except Failure α
  | some a => .ok a
  | none => .error .outOfRange

end NeuralC
