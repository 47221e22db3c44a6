import NeuralC.C.Numbers
import NeuralC.C.Template

/-!
# NeuralC.C.Model

The files of a whole model: the header of its sizes, the header of its entry
point, and the source that calls the functions of the layers one after
another on the memory of the plan.
-/

namespace NeuralC.C

/-- The layers that code is generated for. -/
def computed (g : Graph) : Except Failure (List Node) := do
  return (← g.nodes).filter fun n => !n.layer.isInput

/-! ## Sizes -/

/-- The word for a rounding that may be absent. -/
def roundName (mode : Option RoundMode) : String := (mode.getD .unset).name

/-- What is said when two roundings differ. -/
def roundClash (first : String) (firstLayer what layer : String) : String :=
  "#error \"CMSIS-NN requires all round modes to be identical, got output_round_mode " ++
    s!"{first} for {firstLayer} and {what} for {layer}\""

/-- The clashes of a layer with the output rounding of the first. -/
def roundClashes (firstLayer : String) (first : Option RoundMode) (n : Node) : List String :=
  let output := n.quant.bind (·.outputRound)
  let clash := fun what => roundClash (roundName first) firstLayer what n.name
  (if output ≠ first then [clash (roundName output)] else []) ++
    match n.quant.bind (·.weightsRound) with
    | none => []
    | some weights =>
      if some weights ≠ first then [clash s!"weights_round_mode {weights.name}"] else []

/-- The choice of rounding for libraries that have one for all layers. -/
def roundChoice : Option RoundMode → List String
  | some .floor => ["#define ARM_NN_TRUNCATE 1", "#define RISCV_NN_TRUNCATE 1"]
  | some .nearest => ["#undef ARM_NN_TRUNCATE", "#undef RISCV_NN_TRUNCATE"]
  | _ =>
    ["#error \"Unrecognized round mode, only floor and nearest are supported by CMSIS-NN\""]

/-- The line that defines the size of the output of a layer. -/
def sizeLine (n : Node) : Except Failure String := do
  let elements ← n.layer.outputShape.countSample
  return s!"#define {Text.upper n.name}_OUTPUT_SIZE {elements}"

/-- The header of the sizes of a model. -/
def defines (s : Scope) : Except Failure Code := do
  let nodes ← s.graph.nodes
  let layers ← computed s.graph
  let sizes ← layers.mapM sizeLine
  let first := nodes.head?
  let firstLayer := (first.map Node.name).getD ""
  let firstRound := (first.bind (·.quant)).bind (·.outputRound)
  return lines (["#ifndef _DEFINES_H_", "#define _DEFINES_H_", "",
      s!"#define MODEL_ACTIVATION_POOLS {s.plan.pools.length}"] ++
    sizes ++
    ["", "/* CMSIS-NN round mode definition */",
      "#if defined(WITH_CMSIS_NN) || defined(WITH_NMSIS_NN)"] ++
    nodes.flatMap (roundClashes firstLayer firstRound) ++
    roundChoice firstRound ++
    ["#endif // defined(WITH_CMSIS_NN) || defined(WITH_NMSIS_NN)", "",
      "#endif // _DEFINES_H_"])

/-! ## The entry point -/

/-- First and last layer of a model, with the record of the first. -/
structure Endpoints where
  input : Node
  record : QuantRecord
  last : Node
deriving DecidableEq, Repr

/-- The endpoints of a model that computes something. -/
def endpoints (t : Template) (g : Graph) : Except Failure Endpoints :=
  match g.input?, g.output? with
  | some input, some last => do
    let input ← g.node input
    let last ← g.node last
    if last.layer.isInput then t.fault .noComputedLayer
    else return ⟨input, ← t.recordOf input, last⟩
  | _, _ => t.fault .emptyGraph

/-- Lines that declare names for C also when compiled as another language. -/
def externOpen : List String := ["#ifdef __cplusplus", "extern \"C\" \x7b", "#endif"]

/-- The end of such declarations. -/
def externClose : List String := ["#ifdef __cplusplus", "\x7d // extern \"C\"", "#endif"]

/-- The header of the entry point. -/
def modelHeader (t : Template) (s : Scope) : Except Failure Code := do
  let e ← endpoints t s.graph
  let layers ← computed s.graph
  let shape := e.input.layer.outputShape
  let dims := shape.drop 1
  let product := " * ".intercalate (dims.map toString)
  let samples := e.last.layer.outputShape.getLast?.getD 0
  return lines (["#ifndef _MODEL_H_", "#define _MODEL_H_", ""] ++ externOpen ++ [""]) ++
    includes ("number.h" :: layers.map fun n => s!"{n.name}.h") ++
    lines ([""] ++
      (dims.zipIdx.map fun (n, i) => s!"#define MODEL_INPUT_DIM_{i} {n}") ++
      [s!"#define MODEL_INPUT_DIMS ({product})", "",
        s!"#define MODEL_OUTPUT_SAMPLES {samples}", "",
        s!"#define MODEL_INPUT_SCALE_FACTOR {e.record.outputScale.getD 0}",
        s!"#define MODEL_INPUT_ROUND_MODE {roundWord e.record.outputRound}",
        s!"#define MODEL_INPUT_NUMBER_T {e.record.numberType.cName}",
        s!"#define MODEL_INPUT_LONG_NUMBER_T {e.record.numberType.longCName}", "",
        s!"typedef MODEL_INPUT_NUMBER_T input_t{extents shape};",
        s!"typedef {e.last.name}_output_type output_t;", "",
        "void cnn(", "  const input_t input,", "  output_t output);", "",
        "void reset(void);", ""] ++
      externClose ++ ["", "#endif // _MODEL_H_"])

/-! ## The calls -/

/-- An argument of a call, with the lines that prepare it. -/
structure Argument where
  text : String
  setup : List String
deriving DecidableEq, Repr

/-- Where the output of a layer is found: the input of the model, or a pool. -/
def place (s : Scope) (h : Handle) (n : Node) : String :=
  if n.layer.isInput then "input" else s!"activations{s.plan.poolIndex h}.{n.name}_output"

/-- An operand of a layer.  An operand of another number type is converted
into a buffer of its own first. -/
def operand (t : Template) (s : Scope) (n : Node) (q : QuantRecord) (i : Nat) (h : Handle) :
    Except Failure Argument := do
  let pred ← s.graph.node h
  let found := place s h pred
  let r ← t.recordOf pred
  let source := r.numberType.cName
  let target := q.numberType.cName
  if source = target then return ⟨found, []⟩
  else
    let shape := n.layer.inputShapes.getD i []
    let elements ← shape.countSample
    let buffer := s!"{n.name}_input_{i + 1}"
    let scale := (if r.isInteger then r.outputScale else q.outputScale).getD 0
    return ⟨buffer, [
      s!"static {target} {buffer}{extents shape};",
      s!"{conversionName source target}((const {source} *){found}, ({target} *){buffer}, " ++
        s!"{elements}, {scale});"]⟩

/-- Arguments one to a line, between commas. -/
def argumentLines : List String → List String
  | [] => []
  | [a] => [a]
  | a :: as => (a ++ ",") :: argumentLines as

/-- The call of the function of a layer. -/
def call (t : Template) (s : Scope) (h : Handle) (n : Node) : Except Failure Code := do
  let q ← t.recordOf n
  let operands ← n.preds.zipIdx.mapM fun (p, i) => operand t s n q i p
  let weights := n.layer.weights.map fun (role, _) => CArray.nameOf n.name role
  let output := if s.graph.output? = some h then s!"{n.name}_output"
    else s!"activations{s.plan.poolIndex h}.{n.name}_output"
  let arguments := operands.map Argument.text ++ weights ++ [output]
  return lines (operands.flatMap Argument.setup) ++
    enclosed s!"{n.name}(" (lines (argumentLines arguments)) ");"

/-- The calls of all layers, in order. -/
def calls (t : Template) (s : Scope) : List Handle → Except Failure Code
  | [] => .ok []
  | h :: hs => do
    let n ← s.graph.node h
    let code ← if n.layer.isInput then pure [] else call t s h n
    return code ++ (← calls t s hs)

/-- The memory of a pool: one output after another in the same place. -/
def poolMemory (g : Graph) (pool : Memory.Pool) (number : Nat) : Except Failure Code := do
  let tenants ← pool.tenants.mapM g.node
  return enclosed "static union \x7b"
    (lines (tenants.map fun n => s!"{n.name}_output_type {n.name}_output;"))
    s!"\x7d activations{number};"

/-- The files that the source of a model includes for a layer. -/
def layerIncludes (n : Node) : List String :=
  s!"{n.name}.c" :: if n.layer.hasWeights then [s!"weights/{n.name}.c"] else []

/-- The source of a model. -/
def model (t : Template) (s : Scope) : Except Failure Code := do
  let e ← endpoints t s.graph
  let layers ← computed s.graph
  let memory ← s.plan.pools.zipIdx.mapM fun (pool, i) => poolMemory s.graph pool (i + 1)
  let chain ← calls t s s.graph.order
  return lines (externOpen ++ [""]) ++
    includes (["number.h", "model.h"] ++ layers.flatMap layerIncludes) ++
    lines ["", "void cnn(", "  const input_t input,"] ++
    braced s!"{e.last.name}_output_type {e.last.name}_output)" (
      lines ["", "// Output array allocation"] ++
      memory.flatten ++
      lines ["", "// Model layers call chain"] ++
      chain) ++
    blank ++ braced "void reset(void)" [] ++ blank ++
    lines externClose

end NeuralC.C
