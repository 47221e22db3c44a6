import NeuralC.Graph.Edit
import NeuralC.Model.Declaration

/-!
# NeuralC.Model.Parse

A model description as a graph.  All lines are read first, so a malformed line
is reported before anything that two lines disagree on; a line whose dimensions
multiply to more than a size can be ends the reading without a report.  Then the
layers enter the graph in the order of their lines, each reading layers declared
before it; weights may stand anywhere.
-/

namespace NeuralC.Model

/-- The statements of a description, in the order of their lines. -/
structure Declarations where
  layers : List LayerLine
  weights : List WeightLine
deriving DecidableEq, Repr

/-- Adds a statement; a weight must not be given twice. -/
def Declarations.add (d : Declarations) : Statement → Except Diagnostic Declarations
  | .layer l => .ok { d with layers := d.layers ++ [l] }
  | .weight w =>
    if (weight? d.weights w.layer w.role).isSome then
      .error (.parse w.line (.duplicateWeights s!"{w.layer}.{w.role}"))
    else .ok { d with weights := d.weights ++ [w] }

/-- Reads lines that start at a line number. -/
def readLines (d : Declarations) (line : Nat) : List (List Char) → Except Failure Declarations
  | [] => .ok d
  | raw :: rest =>
    match readLine line raw with
    | .error f => .error f
    | .ok none => readLines d (line + 1) rest
    | .ok (some s) =>
      match d.add s with
      | .error e => .error (.reported e)
      | .ok d' => readLines d' (line + 1) rest

/-- The statements of a text. -/
def declarations (text : String) : Except Failure Declarations :=
  readLines ⟨[], []⟩ 1 (Text.lines text.toList)

/-- The handle of a layer that a line reads. -/
def operand (g : Graph) (l : LayerLine) (name : String) : Except Diagnostic Handle :=
  match g.find? name with
  | some h => .ok h
  | none => l.fault (.unknownInput name)

/-- Adds a declared layer to the graph of the layers in front of it. -/
def addLayer (weights : List WeightLine) (g : Graph) (l : LayerLine) : Except Diagnostic Graph :=
  if (g.find? l.name).isSome then l.fault (.declaredTwice l.name)
  else do
    let preds ← l.inputs.mapM (operand g l)
    if preds.isEmpty then l.fault (.noInputs l.name)
    else
      let kind ← l.layerKind weights
      let shapes := preds.map fun h => ((g.get? h).map (·.layer.outputShape)).getD []
      match g.insert ⟨l.name, shapes, [l.output], .float32, kind⟩ preds [] with
      | .ok (g', _) => return g'
      | .error e => throw (e.inStage .importing)

/-- Whether a weight belongs to one of some layers. -/
def isUsed (layers : List LayerLine) (weights : List WeightLine) (w : WeightLine) : Bool :=
  layers.any fun l => l.name = w.layer && (l.roles weights).contains w.role

/-- The graph of a description. -/
def build (d : Declarations) : Except Diagnostic Graph :=
  match d.layers with
  | [] => .error (.parse 0 .noLayer)
  | first :: rest =>
    if first.kind ≠ "input" ∨ first.inputs ≠ [] then first.fault .firstNotInput
    else
      match Graph.empty.addInput (.source first.name first.output) with
      | .error e => .error (e.inStage .importing)
      | .ok (g, _) => do
        let g ← rest.foldlM (addLayer d.weights) g
        match d.weights.find? (fun w => !isUsed rest d.weights w) with
        | some w => throw (.parse w.line (.unusedWeights w.layer w.role))
        | none => return g

/-- Reads a model description. -/
def parse (text : String) : Except Failure Graph :=
  match declarations text with
  | .error f => .error f
  | .ok d => orFail (build d)

end NeuralC.Model
