import NeuralC.Number

/-!
# NeuralC.Session

What one compilation accumulates beside its graph: counts of what the stages
did, the number types the generated code must declare, and a log.
-/

namespace NeuralC

/-! ## The log -/

/-- The importance of a log record. -/
inductive Level where
  | trace
  | debug
  | info
  | warn
  | error
deriving DecidableEq, Repr

/-- The word for a level. -/
def Level.name : Level → String
  | trace => "TRACE"
  | debug => "DEBUG"
  | info => "INFO"
  | warn => "WARN"
  | error => "ERROR"

/-- One log record. -/
structure LogRecord where
  level : Level
  text : String
deriving DecidableEq, Repr

/-! ## Statistics -/

/-- Counts of what the stages did. -/
structure Statistics where
  /-- Passes run. -/
  passesRun : Nat := 0
  /-- Changes by pass, in the order of the names. -/
  passChanges : List (String × Nat) := []
  /-- Nodes deleted outright. -/
  nodesRemoved : Nat := 0
  /-- Nodes merged into a neighbour. -/
  nodesFused : Nat := 0
  /-- Weight tensors converted to fixed point. -/
  tensorsQuantized : Nat := 0
  /-- Their elements. -/
  elementsQuantized : Nat := 0
  /-- Memory pools opened. -/
  poolsOpened : Nat := 0
  /-- Bytes of the memory pools. -/
  activationBytes : Nat := 0
  /-- Files rendered. -/
  artifactsRendered : Nat := 0
  /-- Their bytes. -/
  bytesRendered : Nat := 0
deriving DecidableEq, Repr

namespace Statistics

/-- Adds changes to the count of a pass, in a list ordered by name. -/
def addChanges (name : String) (changed : Nat) : List (String × Nat) → List (String × Nat)
  | [] => [(name, changed)]
  | (other, n) :: rest =>
    if name = other then (other, n + changed) :: rest
    else if name < other then (name, changed) :: (other, n) :: rest
    else (other, n) :: addChanges name changed rest

/-- Counts a pass and the changes it made. -/
def recordPass (s : Statistics) (name : String) (changed : Nat) : Statistics :=
  { s with
    passesRun := s.passesRun + 1
    passChanges := addChanges name changed s.passChanges }

/-- Counts a deleted node. -/
def recordRemoved (s : Statistics) : Statistics := { s with nodesRemoved := s.nodesRemoved + 1 }

/-- Counts a merged node. -/
def recordFused (s : Statistics) : Statistics := { s with nodesFused := s.nodesFused + 1 }

/-- Counts a converted tensor. -/
def recordQuantized (s : Statistics) (elements : Nat) : Statistics :=
  { s with
    tensorsQuantized := s.tensorsQuantized + 1
    elementsQuantized := s.elementsQuantized + elements }

/-- Counts an opened pool. -/
def recordPool (s : Statistics) : Statistics := { s with poolsOpened := s.poolsOpened + 1 }

/-- Notes the bytes of all pools. -/
def recordFootprint (s : Statistics) (bytes : Nat) : Statistics :=
  { s with activationBytes := bytes }

/-- Counts a rendered file. -/
def recordArtifact (s : Statistics) (bytes : Nat) : Statistics :=
  { s with
    artifactsRendered := s.artifactsRendered + 1
    bytesRendered := s.bytesRendered + bytes }

/-- The counts as text, one to a line. -/
def render (s : Statistics) : String :=
  let head := [
    "Compilation Session Statistics:",
    s!"  Passes run: {s.passesRun}",
    s!"  Nodes removed: {s.nodesRemoved}",
    s!"  Nodes fused: {s.nodesFused}",
    s!"  Tensors quantized: {s.tensorsQuantized} ({s.elementsQuantized} elements)",
    s!"  Pools opened: {s.poolsOpened}",
    s!"  Activation RAM: {s.activationBytes} bytes",
    s!"  Artifacts rendered: {s.artifactsRendered} ({s.bytesRendered} bytes)"]
  let passes := s.passChanges.map fun (name, n) => s!"    {name}: {n}"
  let all := if passes.isEmpty then head else head ++ "  Pass breakdown:" :: passes
  String.join (all.map (· ++ "\n"))

end Statistics

/-! ## Sessions -/

/-- The state of one compilation beside its graph. -/
structure Session where
  stats : Statistics := {}
  types : NumberTypes := .initial
  log : List LogRecord := []
deriving DecidableEq, Repr

namespace Session

/-- Adds a log record. -/
def note (s : Session) (level : Level) (text : String) : Session :=
  { s with log := s.log ++ [⟨level, text⟩] }

/-- Adds a number type, and a log record when it is new. -/
def recordType (s : Session) (t : NumberType) : Session :=
  if s.types.contains t then s
  else { s with types := s.types.insert t }.note .debug
    s!"New numeric type {t.cName} (accumulator {t.longCName})"

end Session

end NeuralC
