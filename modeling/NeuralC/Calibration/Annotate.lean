import NeuralC.Calibration.Table
import NeuralC.Work

/-!
# NeuralC.Calibration.Annotate

Quantization records for the layers of a graph.  In floating point all layers
have the same.  In fixed point a layer takes the entry of its name; a layer
that reads nothing borrows from the first layer with an entry behind it, along
first successors, and any other takes over the record of its first operand.
-/

namespace NeuralC.Calibration

/-- The first node with an entry along first successors, from the first
successor of a node on.  Edges run forward in the order, so no walk is longer
than the order; one that takes more than `steps` has gone astray. -/
def firstCalibrated (g : Graph) (t : Table) (steps : Nat) (n : Node) :
    Except Failure (Option Handle) :=
  match n.succs with
  | [] => .ok none
  | s :: _ =>
    match steps with
    | 0 => .error .outOfRange
    | steps + 1 =>
      match g.node s with
      | .error f => .error f
      | .ok next =>
        if (t.get? next.name).isSome then .ok (some s) else firstCalibrated g t steps next

/-- The record of one layer, from the table and the records in front of it. -/
def resolve (t : Table) (format : NumberFormat) (h : Handle) : Work QuantRecord := do
  let g ← Work.graph
  let n ← Work.attempt (g.node h)
  match t.get? n.name with
  | some e => return e.toRecord format
  | none =>
    match n.preds with
    | [] =>
      Work.note .warn
        s!"No quantization information for '{n.name}', looking for a subsequent layer"
      match ← Work.attempt (firstCalibrated g t g.size n) with
      | none => Work.report (.quantization n.name .nothingToBorrow)
      | some s =>
        let lender := g.nameOf s
        Work.note .warn s!"Applying '{lender}' quantization information to '{n.name}'"
        match t.get? lender with
        | none => Work.report (.quantization n.name .entryVanished)
        | some e => return e.toRecord format
    | p :: _ =>
      let pred ← Work.attempt (g.node p)
      Work.note .warn
        (s!"No quantization information for '{n.name}', " ++
          s!"applying first previous layer '{pred.name}' information")
      match pred.quant with
      | some q => return q
      | none => Work.report (.quantization n.name (.predecessorWithoutRecord pred.name))

/-- The record of a layer in floating point. -/
def uniform (format : NumberFormat) (h : Handle) : Work QuantRecord := do
  let _ ← Work.node h
  return .float format.width format.longWidth

/-- Annotates layers one after another with the records that a rule gives. -/
def annotateAll (record : Handle → Work QuantRecord) : List Handle → Work Unit
  | [] => pure ()
  | h :: hs => do
    let q ← record h
    Work.setGraph ((← Work.graph).setQuant h (some q))
    annotateAll record hs

/-- The name of the first layer of the graph at work. -/
def inputName : Work String := do
  match (← Work.graph).input? with
  | none => return ""
  | some h => return (← Work.node h).name

/-- Gives every layer its record. -/
def annotate (table : Option Table) (format : NumberFormat) : Work Unit := do
  let g ← Work.graph
  match format.kind with
  | .float => annotateAll (uniform format) g.order
  | .integer =>
    let name ← inputName
    match table with
    | some t =>
      if t.isEmpty then Work.report (.quantization name .noCalibration)
      else annotateAll (resolve t format) g.order
    | none => Work.report (.quantization name .noCalibration)

end NeuralC.Calibration
