import NeuralC.Graph.Basic
import NeuralC.Session

/-!
# NeuralC.Work

The stages of a compilation work on a graph within a session.  A stage that
fails leaves graph and session as they were when it stopped: what it did up to
there is not taken back.
-/

namespace NeuralC

/-- What a stage works on. -/
structure Workspace where
  graph : Graph
  session : Session
deriving DecidableEq, Repr

/-- A step of a compilation. -/
abbrev Work := EStateM Failure Workspace

namespace Work

/-- The graph as it stands. -/
def graph : Work Graph := return (← get).graph

/-- Puts another graph in place. -/
def setGraph (g : Graph) : Work Unit := modify fun w => { w with graph := g }

/-- Adds a log record. -/
def note (level : Level) (text : String) : Work Unit :=
  modify fun w => { w with session := w.session.note level text }

/-- Changes the counts. -/
def count (f : Statistics → Statistics) : Work Unit :=
  modify fun w => { w with session := { w.session with stats := f w.session.stats } }

/-- Adds a number type. -/
def recordType (t : NumberType) : Work Unit :=
  modify fun w => { w with session := w.session.recordType t }

/-- Stops with a report. -/
def report {α : Type} (d : Diagnostic) : Work α := throw (.reported d)

/-- Goes on with a value, or stops with the failure in its place. -/
def attempt {α : Type} : Except Failure α → Work α
  | .ok a => pure a
  | .error f => throw f

/-- Goes on with a value, or stops with the report in its place. -/
def check {α : Type} : Except Diagnostic α → Work α
  | .ok a => pure a
  | .error d => report d

/-- The node of a handle that should have one. -/
def node (h : Handle) : Work Node := do attempt ((← graph).node h)

/-- The handles, in order, of the layers of some kinds.  Every layer is looked
at. -/
def handlesWhere (p : LayerKind → Bool) : Work (List Handle) := do
  let g ← graph
  let _ ← attempt g.nodes
  return g.handlesWhere p

end Work

end NeuralC
