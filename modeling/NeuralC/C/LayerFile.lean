import NeuralC.C.Template

/-!
# NeuralC.C.LayerFile

The source file of a layer: one function that reads the operands and weights of
the layer and writes its output.  Sizes, scale factors and types come from
constants that are defined in front of the function and undefined behind it,
in the opposite order, so that the files of all layers can be joined to one.

A `LayerFile` keeps constants and parameters as data; `Constant.value` and
`Extent` let the declared extents of an array be computed.
-/

namespace NeuralC.C

/-! ## Layers at hand -/

/-- A layer whose file is rendered, with its record and its operands. -/
structure BoundLayer where
  template : Template
  node : Node
  record : QuantRecord
  operands : List Node
deriving DecidableEq, Repr

namespace BoundLayer

/-- The layer that a template is rendered for. -/
def bind (t : Template) (s : Scope) : Except Failure BoundLayer :=
  match s.layer.bind s.graph.get? with
  | none => t.fault .noLayerBound
  | some n => do
    let q ← t.recordOf n
    let operands ← n.preds.mapM s.graph.node
    return ⟨t, n, q, operands⟩

/-- The name of the layer. -/
def name (l : BoundLayer) : String := l.node.name

/-- The output shape of the layer. -/
def outputShape (l : BoundLayer) : Shape := l.node.layer.outputShape

/-- A report that the file of the layer cannot be rendered. -/
def fault {α : Type} (l : BoundLayer) (cause : RenderCause) : Except Failure α :=
  l.template.fault cause

/-- The shape of an operand. -/
def inputShape (l : BoundLayer) (i : Nat) : Except Failure Shape :=
  match l.node.layer.inputShapes[i]? with
  | some shape => .ok shape
  | none => l.fault (.noInputShape l.name i)

/-- The shape of an operand, which has to have some rank. -/
def inputOfRank (l : BoundLayer) (i rank : Nat) : Except Failure Shape := do
  let shape ← l.inputShape i
  if shape.length = rank then return shape else l.fault (.inputRank l.name rank shape)

/-- The output shape, which has to have some rank. -/
def outputOfRank (l : BoundLayer) (rank : Nat) : Except Failure Shape :=
  if l.outputShape.length = rank then .ok l.outputShape
  else l.fault (.outputRank l.name rank l.outputShape)

/-- The scale factor of an operand. -/
def inputScale (l : BoundLayer) (i : Nat) : Int :=
  ((l.operands[i]?.bind (·.quant)).bind (·.outputScale)).getD 0

end BoundLayer

/-- A dimension of a shape that has it. -/
def dimension (shape : Shape) (i : Nat) : Except Failure Nat := present shape[i]?

/-! ## Constants -/

/-- What a constant stands for. -/
inductive ConstantValue where
  | whole (n : Nat)
  | signed (i : Int)
  /-- A quotient of two other constants. -/
  | quotient (dividend divisor : String)
  | word (text : String)
deriving DecidableEq, Repr

/-- The text that a constant is replaced by. -/
def ConstantValue.text : ConstantValue → String
  | whole n => toString n
  | signed i => toString i
  | quotient dividend divisor => s!"({dividend} / {divisor})"
  | word text => text

/-- A constant of a layer file. -/
structure Constant where
  name : String
  value : ConstantValue
deriving DecidableEq, Repr

/-- A size. -/
def size (name : String) (n : Nat) : Constant := ⟨name, .whole n⟩

/-- A scale factor. -/
def scale (name : String) (i : Int) : Constant := ⟨name, .signed i⟩

/-- The lines that define constants. -/
def defineLines (cs : List Constant) : Code :=
  lines (cs.map fun c => s!"#define {c.name} {c.value.text}")

/-- The lines that take constants back. -/
def undefineLines (cs : List Constant) : Code :=
  lines (cs.reverse.map fun c => s!"#undef {c.name}")

/-- Constants for the numbers of a layer. -/
def numberConstants (l : BoundLayer) : List Constant := [
  scale "INPUT_SCALE_FACTOR" (l.inputScale 0),
  scale "OUTPUT_SCALE_FACTOR" (l.record.outputScale.getD 0),
  ⟨"OUTPUT_ROUND_MODE", .word (roundWord l.record.outputRound)⟩,
  ⟨"NUMBER_T", .word l.record.numberType.cName⟩,
  ⟨"LONG_NUMBER_T", .word l.record.numberType.longCName⟩]

/-- The number type alone, for a layer that only moves numbers. -/
def typeConstant (l : BoundLayer) : Constant := ⟨"NUMBER_T", .word l.record.numberType.cName⟩

/-- The common scale factor that products and bias are added in. -/
def sumScale (q : QuantRecord) : Int :=
  let weights := q.weightsScale.getD 0
  match q.biasScale with
  | some bias => max weights bias
  | none => weights

/-- Constants for the weights of a layer. -/
def weightConstants (l : BoundLayer) : List Constant := [
  scale "WEIGHTS_SCALE_FACTOR" (l.record.weightsScale.getD 0),
  scale "BIASES_SCALE_FACTOR" (l.record.effectiveBiasScale.getD 0),
  scale "TMP_SCALE_FACTOR" (sumScale l.record)]

/-! ## Parameters -/

/-- An extent of a parameter. -/
inductive Extent where
  | whole (n : Nat)
  | named (constant : String)
deriving DecidableEq, Repr

/-- The text of an extent. -/
def Extent.text : Extent → String
  | whole n => toString n
  | named constant => constant

/-- An array that the function of a layer reads. -/
structure Parameter where
  name : String
  extents : List Extent
deriving DecidableEq, Repr

/-- A parameter with constants for extents. -/
def parameter (name : String) (constants : List String) : Parameter :=
  ⟨name, constants.map .named⟩

/-- A parameter of some shape, batch dimension left out. -/
def Parameter.ofShape (name : String) (shape : Shape) : Parameter :=
  ⟨name, (shape.drop 1).map .whole⟩

/-- The declaration of a parameter. -/
def Parameter.text (p : Parameter) : String :=
  s!"const NUMBER_T {p.name}{brackets (p.extents.map Extent.text)}"

/-! ## Files -/

/-- The parts of a layer file that differ from layer to layer. -/
structure LayerFile where
  constants : List Constant
  parameters : List Parameter
  body : Code
deriving DecidableEq, Repr

/-- The function of a layer. -/
def LayerFile.function (f : LayerFile) (name : String) : Code :=
  enclosed s!"static inline void {name}("
    (lines (f.parameters.map fun p => p.text ++ ",") ++
      line s!"{name}_output_type output) \x7b" ++ f.body)
    "\x7d"

/-- The whole file of a layer. -/
def LayerFile.code (f : LayerFile) (l : BoundLayer) : Code :=
  line s!"/* {l.node.layer.kind.name} layer {l.name} */" ++ blank ++
    includes ["number.h", s!"{l.name}.h"] ++ blank ++
    defineLines f.constants ++ blank ++
    f.function l.name ++ blank ++
    undefineLines f.constants

/-! ## Storing results -/

/-- Puts the accumulator, which has some scale factor, through an activation
and stores it. -/
def store (l : BoundLayer) (f : Activation) (target scale : String) : Except Failure Code :=
  let stored := s!"{target} = scale_and_clamp_to(NUMBER_T, output_acc, " ++
    s!"{scale} - OUTPUT_SCALE_FACTOR, OUTPUT_ROUND_MODE);"
  let six := s!"scale(NUMBER_T, 6, -({scale}), OUTPUT_ROUND_MODE)"
  let zero := line s!"{target} = 0;"
  match f with
  | .linear => .ok (line stored)
  | .relu => .ok (choice "output_acc < 0" zero (line stored))
  | .relu6 => .ok (choice "output_acc < 0" zero
      (when s!"output_acc > {six}" (line s!"output_acc = {six};") ++ line stored))
  | other => l.fault (.activationNotInline l.name other)

/-- Adds the bias of a channel to a sum of products and stores it. -/
def storeWeighted (l : BoundLayer) (f : Activation) (hasBias : Bool) (target : String) :
    Except Failure Code := do
  let rescaled := line ("output_acc = scale(NUMBER_T, output_acc, " ++
    "WEIGHTS_SCALE_FACTOR - TMP_SCALE_FACTOR, OUTPUT_ROUND_MODE);")
  let bias := if hasBias then line ("output_acc += scale(NUMBER_T, (LONG_NUMBER_T)bias[k], " ++
    "BIASES_SCALE_FACTOR - TMP_SCALE_FACTOR - INPUT_SCALE_FACTOR, OUTPUT_ROUND_MODE);") else []
  let stored ← store l f target "INPUT_SCALE_FACTOR + TMP_SCALE_FACTOR"
  return rescaled ++ bias ++ stored

/-- Stores a value that was computed in double precision. -/
def storeReal (q : QuantRecord) (target value : String) : Code :=
  if q.isInteger then line (s!"{target} = clamp_to(NUMBER_T, " ++
    s!"(LONG_NUMBER_T)floor(ldexp({value}, OUTPUT_SCALE_FACTOR)));")
  else line s!"{target} = (NUMBER_T)({value});"

/-- Pointers that run over the input and the output as flat arrays. -/
def flatPointers : Code := lines [
  "const NUMBER_T *i = (const NUMBER_T *)input;",
  "NUMBER_T *o = (NUMBER_T *)output;"]

end NeuralC.C
