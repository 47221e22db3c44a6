import NeuralC.Size
import NeuralC.Work

/-!
# NeuralC.Validate

The rules that every layer has to meet before code is generated for it.  The
first broken rule of the first layer that breaks one is reported.  The elements
of an input are counted on the way, which can overflow.
-/

namespace NeuralC.Validate

/-- Softmax stands alone, and other activations clip or do nothing. -/
def activationFault? (n : Node) : Option ValidationCause :=
  match n.layer.kind, n.layer.kind.activation? with
  | _, none | _, some .linear | _, some .relu | _, some .relu6 => none
  | .activation _, some .softmax => none
  | kind, some .softmax => some (.softmaxCombined kind.name)
  | _, some .fire => some (.activationUnsupported .fire)

/-- Whether a parameter of batch normalization has one value per channel. -/
def fitsChannels (n : Node) (t : Tensor) : Bool :=
  (n.layer.inputShapes.head?.bind (·.getLast?)) == some t.length && t.shape.length == 1

/-- The parameters of a batch normalization fit the channels of its input. -/
def batchNormFault? (n : Node) : Option ValidationCause :=
  match n.layer.kind with
  | .batchNorm1D b | .batchNorm2D b =>
    match [(Role.kernel, b.kernel), (Role.bias, b.bias)].find? fun (_, t) => !fitsChannels n t with
    | some (role, t) => some (.parameterShape role.name t.shape n.layer.inputShapes.head?)
    | none => none
  | _ => none

/-- The product of the numbers of elements of shapes. -/
def countAll (shapes : List Shape) : Except Failure Nat :=
  shapes.foldlM (fun n shape => do bounded (n * (← shape.countSample))) 1

/-- A flatten layer has one input and one output of as many elements. -/
def flattenFault? (n : Node) : Except Failure (Option ValidationCause) :=
  match n.layer.kind with
  | .flatten =>
    if n.preds.length ≠ 1 then .ok (some .flattenInputs)
    else if n.layer.outputShapes.length ≠ 1 then .ok (some .flattenOutputs)
    else do
      let inputs ← countAll n.layer.inputShapes
      let outputs := n.layer.outputShape.getLast?.getD 0
      return if inputs = outputs then none else some (.flattenElements inputs outputs)
  | _ => .ok none

/-- The dimensions a sum over an input of some rank reduces. -/
def sumDims? : Nat → Option (List Int)
  | 3 => some [-1]
  | 4 => some [-2, -1]
  | _ => none

/-- A sum comes last, has one input, and reduces its spatial dimensions. -/
def sumFault? (n : Node) : Option ValidationCause :=
  match n.layer.kind with
  | .sum dims =>
    let rank := (n.layer.inputShapes.head?.map List.length).getD 0
    if n.succs ≠ [] then some .sumNotLast
    else if n.preds.length ≠ 1 then some .sumInputs
    else match sumDims? rank with
      | none => some (.sumRank rank)
      | some expected => if dims = expected then none else some (.sumDims rank expected dims)
  | _ => none

/-- An integer layer has its output rounding set. -/
def roundModeFault? (n : Node) : Option ValidationCause :=
  match n.quant with
  | some q =>
    if q.isInteger ∧ (q.outputRound = none ∨ q.outputRound = some .unset) then some .noRoundMode
    else none
  | none => none

/-- The rules in order. -/
def rules : List (Rule × (Node → Except Failure (Option ValidationCause))) := [
  (.activationLegality, fun n => .ok (activationFault? n)),
  (.batchNormShape, fun n => .ok (batchNormFault? n)),
  (.flattenArity, flattenFault?),
  (.globalSumPooling, fun n => .ok (sumFault? n)),
  (.roundModePresence, fun n => .ok (roundModeFault? n))]

/-- Checks one node against rules in order. -/
def checkRules (n : Node) :
    List (Rule × (Node → Except Failure (Option ValidationCause))) → Except Failure Unit
  | [] => .ok ()
  | (rule, fault?) :: rest => do
    match ← fault? n with
    | some cause => throw (.reported (.validation n.name rule cause))
    | none => checkRules n rest

/-- Checks one node against all rules. -/
def checkNode (n : Node) : Except Failure Unit := checkRules n rules

/-- Checks nodes one after another. -/
def checkAll (g : Graph) : List Handle → Except Failure Unit
  | [] => .ok ()
  | h :: hs =>
    match g.node h with
    | .error f => .error f
    | .ok n =>
      match checkNode n with
      | .error f => .error f
      | .ok () => checkAll g hs

/-- Checks every layer of the graph at work. -/
def validate : Work Unit := do
  let g ← Work.graph
  Work.attempt (checkAll g g.order)
  Work.note .debug s!"Validated {g.size} layers"

end NeuralC.Validate
