import NeuralC.C.LayerFile

/-!
# NeuralC.C.Elementwise

Code of the layers that work element by element or row by row: activations,
softmax, additions and sample normalization.
-/

namespace NeuralC.C

/-- An activation layer. -/
def activation (l : BoundLayer) (f : Activation) : Except Failure LayerFile := do
  let input ← l.inputShape 0
  let elements ← input.countSample
  let stored ← store l f "o[x]" "INPUT_SCALE_FACTOR"
  return {
    constants := size "INPUT_SIZE" elements :: numberConstants l
    parameters := [.ofShape "input" input]
    body := flatPointers ++ lines ["size_t x;", "LONG_NUMBER_T output_acc;", ""] ++
      count "x" "INPUT_SIZE" (line "output_acc = i[x];" ++ stored) }

/-- The real value of the element of a channel. -/
def realElement : String := "ldexp((double)i[x + k], -INPUT_SCALE_FACTOR)"

/-- Softmax of every row of channels, in double precision. -/
def softmax (l : BoundLayer) : Except Failure LayerFile := do
  let input ← l.inputShape 0
  let elements ← input.countSample
  return {
    constants :=
      [size "INPUT_CHANNELS" (input.getLast?.getD 1), size "INPUT_SIZE" elements] ++
      numberConstants l
    parameters := [.ofShape "input" input]
    body := flatPointers ++
      lines ["static double exp_values[INPUT_CHANNELS];", "double max_value, sum;",
        "size_t x, k;", ""] ++
      stride "x" "INPUT_SIZE" "INPUT_CHANNELS" (
        line "max_value = ldexp((double)i[x], -INPUT_SCALE_FACTOR);" ++
        braced "for (k = 1; k < INPUT_CHANNELS; k++)"
          (when s!"{realElement} > max_value" (line s!"max_value = {realElement};")) ++
        line "sum = 0;" ++
        count "k" "INPUT_CHANNELS"
          (lines [s!"exp_values[k] = exp({realElement} - max_value);", "sum += exp_values[k];"]) ++
        count "k" "INPUT_CHANNELS" (storeReal l.record "o[x + k]" "exp_values[k] / sum")) }

/-- The numbers of operands, from 1. -/
def operandNumbers (l : BoundLayer) : List Nat := (List.range l.operands.length).map (· + 1)

/-- Pointers that run over the operands and the output as flat arrays. -/
def operandPointers (l : BoundLayer) : Code :=
  lines ((operandNumbers l).map fun i =>
    s!"const NUMBER_T *i_{i} = (const NUMBER_T *)input_{i};") ++
    line "NUMBER_T *o = (NUMBER_T *)output;"

/-- The sum of operands, in the greatest of their scale factors. -/
def add (l : BoundLayer) (f : Activation) : Except Failure LayerFile := do
  let elements ← l.outputShape.countSample
  let places := List.range l.operands.length
  let shapes ← places.mapM l.inputShape
  let stored ← store l f "o[x]" "ACC_SCALE_FACTOR"
  return {
    constants := [size "OUTPUT_SIZE" elements,
      scale "ACC_SCALE_FACTOR" ((places.map l.inputScale).max?.getD 0)] ++ numberConstants l
    parameters := shapes.zipIdx.map fun (shape, i) => .ofShape s!"input_{i + 1}" shape
    body := operandPointers l ++ lines ["size_t x;", "LONG_NUMBER_T output_acc;", ""] ++
      count "x" "OUTPUT_SIZE" (
        line "output_acc = 0;" ++
        lines (places.map fun i =>
          s!"output_acc += scale(NUMBER_T, (LONG_NUMBER_T)i_{i + 1}[x], " ++
            s!"{l.inputScale i} - ACC_SCALE_FACTOR, OUTPUT_ROUND_MODE);") ++
        stored) }

/-- The offset `a` and the range `b` of one channel. -/
def normBounds (mode : NormMode) : Code :=
  let each := stride "x" "INPUT_SIZE" "INPUT_CHANNELS"
  match mode with
  | .minMax =>
    lines ["a = ldexp((double)i[k], -INPUT_SCALE_FACTOR);", "b = a;"] ++
      each (lines [s!"v = {realElement};", "a = v < a ? v : a;", "b = v > b ? v : b;"]) ++
      line "b = b > a ? b - a : 1;"
  | .zScore =>
    lines ["a = 0;", "b = 0;"] ++
      each (line s!"a += {realElement};") ++
      line "a /= INPUT_SIZE / INPUT_CHANNELS;" ++
      each (lines [s!"v = {realElement} - a;", "b += v * v;"]) ++
      lines ["b = sqrt(b / (INPUT_SIZE / INPUT_CHANNELS));", "b = b > 0 ? b : 1;"]

/-- Normalization of a sample, channel by channel. -/
def sampleNorm (l : BoundLayer) (mode : NormMode) : Except Failure LayerFile := do
  let input ← l.inputShape 0
  let elements ← input.countSample
  return {
    constants :=
      [size "INPUT_CHANNELS" (input.getLast?.getD 1), size "INPUT_SIZE" elements] ++
      numberConstants l
    parameters := [.ofShape "input" input]
    body := flatPointers ++ lines ["size_t x, k;", "double a, b, v;", ""] ++
      count "k" "INPUT_CHANNELS" (
        normBounds mode ++
        stride "x" "INPUT_SIZE" "INPUT_CHANNELS"
          (storeReal l.record "o[x + k]" s!"({realElement} - a) / b")) }

end NeuralC.C
