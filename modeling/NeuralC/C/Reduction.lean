import NeuralC.C.LayerFile

/-!
# NeuralC.C.Reduction

Code of the layers that reduce their input: pooling over one and two
dimensions, and the sum over all of them.
-/

namespace NeuralC.C

/-- What a pooling window is reduced to. -/
inductive Reduction where
  | greatest
  | mean
deriving DecidableEq, Repr

/-- Takes an element into the accumulator if it is greater. -/
def keepGreater (element : String) : Code :=
  when s!"{element} > output_acc" (line s!"output_acc = {element};")

/-- The reduction of a window over one dimension. -/
def window1D : Reduction → Code
  | .greatest =>
    line "output_acc = input[pos_x * POOL_STRIDE][k];" ++
      braced "for (x = 1; x < POOL_SIZE; x++)" (keepGreater "input[pos_x * POOL_STRIDE + x][k]")
  | .mean =>
    line "output_acc = 0;" ++
      count "x" "POOL_SIZE" (line "output_acc += input[pos_x * POOL_STRIDE + x][k];") ++
      line "output_acc = output_acc / POOL_SIZE;"

/-- The constants of a pooling layer over one dimension. -/
def pool1DConstants (l : BoundLayer) (p : Pooling) (input output : Shape) :
    Except Failure (List Constant) := do
  return [size "INPUT_CHANNELS" (← dimension input 2),
    size "INPUT_SAMPLES" (← dimension input 1),
    size "POOL_SIZE" (p.size.getD 0 1),
    size "POOL_STRIDE" (p.strides.getD 0 1),
    size "POOL_LENGTH" (← dimension output 1)] ++ numberConstants l

/-- A pooling layer over one dimension. -/
def pool1D (l : BoundLayer) (p : Pooling) (r : Reduction) : Except Failure LayerFile := do
  let input ← l.inputOfRank 0 3
  let output ← l.outputOfRank 3
  let constants ← pool1DConstants l p input output
  let stored ← store l p.activation "output[pos_x][k]" "INPUT_SCALE_FACTOR"
  return {
    constants := constants
    parameters := [parameter "input" ["INPUT_SAMPLES", "INPUT_CHANNELS"]]
    body := lines ["int pos_x, k, x;", "LONG_NUMBER_T output_acc;", ""] ++
      count "k" "INPUT_CHANNELS" (count "pos_x" "POOL_LENGTH" (window1D r ++ stored)) }

/-- The reduction of a window over two dimensions. -/
def window2D (r : Reduction) : Code :=
  let element := "input[pos_y * POOL_STRIDE_Y + y][pos_x * POOL_STRIDE_X + x][k]"
  match r with
  | .greatest =>
    line "output_acc = input[pos_y * POOL_STRIDE_Y][pos_x * POOL_STRIDE_X][k];" ++
      count "y" "POOL_SIZE_Y" (count "x" "POOL_SIZE_X" (keepGreater element))
  | .mean =>
    line "output_acc = 0;" ++
      count "y" "POOL_SIZE_Y" (count "x" "POOL_SIZE_X" (line s!"output_acc += {element};")) ++
      line "output_acc = output_acc / (POOL_SIZE_Y * POOL_SIZE_X);"

/-- The constants of a pooling layer over two dimensions. -/
def pool2DConstants (l : BoundLayer) (p : Pooling) (input output : Shape) :
    Except Failure (List Constant) := do
  return [size "INPUT_CHANNELS" (← dimension input 3),
    size "INPUT_HEIGHT" (← dimension input 1),
    size "INPUT_WIDTH" (← dimension input 2),
    size "POOL_SIZE_Y" (p.size.getD 0 1),
    size "POOL_SIZE_X" (p.size.getD 1 1),
    size "POOL_STRIDE_Y" (p.strides.getD 0 1),
    size "POOL_STRIDE_X" (p.strides.getD 1 1),
    size "POOL_HEIGHT" (← dimension output 1),
    size "POOL_WIDTH" (← dimension output 2)] ++ numberConstants l

/-- A pooling layer over two dimensions. -/
def pool2D (l : BoundLayer) (p : Pooling) (r : Reduction) : Except Failure LayerFile := do
  let input ← l.inputOfRank 0 4
  let output ← l.outputOfRank 4
  let constants ← pool2DConstants l p input output
  let stored ← store l p.activation "output[pos_y][pos_x][k]" "INPUT_SCALE_FACTOR"
  return {
    constants := constants
    parameters := [parameter "input" ["INPUT_HEIGHT", "INPUT_WIDTH", "INPUT_CHANNELS"]]
    body := lines ["int pos_y, pos_x, k, y, x;", "LONG_NUMBER_T output_acc;", ""] ++
      count "k" "INPUT_CHANNELS" (count "pos_y" "POOL_HEIGHT" (count "pos_x" "POOL_WIDTH"
        (window2D r ++ stored))) }

/-- The sum over all places, channel by channel. -/
def sum (l : BoundLayer) : Except Failure LayerFile := do
  let input ← l.inputShape 0
  if input.length ≠ 3 ∧ input.length ≠ 4 then l.fault (.sumRank l.name input.length)
  else
    let elements ← input.countSample
    return {
      constants :=
        [size "INPUT_CHANNELS" (input.getLast?.getD 1), size "INPUT_SIZE" elements] ++
        numberConstants l
      parameters := [.ofShape "input" input]
      body := flatPointers ++
        lines ["static LONG_NUMBER_T output_acc[INPUT_CHANNELS];", "size_t x, k;", ""] ++
        count "k" "INPUT_CHANNELS" (line "output_acc[k] = 0;") ++
        stride "x" "INPUT_SIZE" "INPUT_CHANNELS"
          (count "k" "INPUT_CHANNELS" (line "output_acc[k] += i[x + k];")) ++
        count "k" "INPUT_CHANNELS" (line ("o[k] = scale_and_clamp_to(NUMBER_T, output_acc[k], " ++
          "INPUT_SCALE_FACTOR - OUTPUT_SCALE_FACTOR, OUTPUT_ROUND_MODE);")) }

end NeuralC.C
