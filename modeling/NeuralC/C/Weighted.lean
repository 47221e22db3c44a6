import NeuralC.C.LayerFile

/-!
# NeuralC.C.Weighted

Code of the layers that own weights: fully connected layers, convolutions over
one and two dimensions, and batch normalization.
-/

namespace NeuralC.C

/-- The constants of a fully connected layer. -/
def denseConstants (l : BoundLayer) (d : Dense) (input : Shape) :
    Except Failure (List Constant) := do
  return [size "INPUT_SAMPLES" (← dimension input 1), size "FC_UNITS" d.units] ++
    weightConstants l ++ numberConstants l

/-- The kernel of a fully connected layer. -/
def denseKernel : Parameter := parameter "kernel" ["FC_UNITS", "INPUT_SAMPLES"]

/-- The bias of a fully connected layer. -/
def denseBias : Parameter := parameter "bias" ["FC_UNITS"]

/-- A fully connected layer. -/
def dense (l : BoundLayer) (d : Dense) : Except Failure LayerFile := do
  let input ← l.inputOfRank 0 2
  let constants ← denseConstants l d input
  let stored ← storeWeighted l d.activation d.bias.isSome "output[k]"
  return {
    constants := constants
    parameters := [parameter "input" ["INPUT_SAMPLES"], denseKernel] ++
      if d.bias.isSome then [denseBias] else []
    body := lines ["int k, z;", "LONG_NUMBER_T output_acc;", ""] ++
      count "k" "FC_UNITS" (
        line "output_acc = 0;" ++
        count "z" "INPUT_SAMPLES"
          (line "output_acc += (LONG_NUMBER_T)kernel[k][z] * (LONG_NUMBER_T)input[z];") ++
        blank ++ stored) }

/-- The input channel under an element of a kernel of some group. -/
def groupChannel : String := "z + (k / FILTERS_PER_GROUP) * CHANNELS_PER_GROUP"

/-- The constants of a convolution over one dimension. -/
def conv1DConstants (l : BoundLayer) (c : Convolution) (input output : Shape) :
    Except Failure (List Constant) := do
  let (left, right) := c.padding.head?.getD (0, 0)
  return [size "INPUT_CHANNELS" (← dimension input 2),
    size "INPUT_SAMPLES" (← dimension input 1),
    size "CONV_FILTERS" c.filters,
    size "CONV_KERNEL_SIZE" (c.kernelSize.getD 0 1),
    size "CONV_STRIDE" (c.strides.getD 0 1),
    size "CONV_GROUPS" (max c.groups 1),
    ⟨"CHANNELS_PER_GROUP", .quotient "INPUT_CHANNELS" "CONV_GROUPS"⟩,
    ⟨"FILTERS_PER_GROUP", .quotient "CONV_FILTERS" "CONV_GROUPS"⟩,
    size "ZEROPADDING_LEFT" left,
    size "ZEROPADDING_RIGHT" right,
    size "CONV_OUTSAMPLES" (← dimension output 1)] ++
    weightConstants l ++ numberConstants l

/-- The kernel of a convolution over one dimension. -/
def conv1DKernel : Parameter :=
  parameter "kernel" ["CONV_FILTERS", "CONV_KERNEL_SIZE", "CHANNELS_PER_GROUP"]

/-- The bias of a convolution. -/
def convBias : Parameter := parameter "bias" ["CONV_FILTERS"]

/-- Skips an element of the kernel that lies over the padding. -/
def skipPadding (counter bound : String) : Code :=
  when s!"{counter} < 0 || {counter} >= {bound}" (line "continue;")

/-- A convolution over one dimension. -/
def conv1D (l : BoundLayer) (c : Convolution) : Except Failure LayerFile := do
  let input ← l.inputOfRank 0 3
  let output ← l.outputOfRank 3
  let constants ← conv1DConstants l c input output
  let stored ← storeWeighted l c.activation c.bias.isSome "output[pos_x][k]"
  return {
    constants := constants
    parameters := [parameter "input" ["INPUT_SAMPLES", "INPUT_CHANNELS"], conv1DKernel] ++
      if c.bias.isSome then [convBias] else []
    body := lines ["int pos_x, k, x, z;", "LONG_NUMBER_T output_acc;", ""] ++
      count "pos_x" "CONV_OUTSAMPLES" (count "k" "CONV_FILTERS" (
        line "output_acc = 0;" ++
        count "x" "CONV_KERNEL_SIZE" (
          line "int input_x = pos_x * CONV_STRIDE - ZEROPADDING_LEFT + x;" ++
          skipPadding "input_x" "INPUT_SAMPLES" ++
          count "z" "CHANNELS_PER_GROUP"
            (line ("output_acc += (LONG_NUMBER_T)kernel[k][x][z] * " ++
              s!"(LONG_NUMBER_T)input[input_x][{groupChannel}];"))) ++
        blank ++ stored)) }

/-- The constants of a convolution over two dimensions. -/
def conv2DConstants (l : BoundLayer) (c : Convolution) (input output : Shape) :
    Except Failure (List Constant) := do
  return [size "INPUT_CHANNELS" (← dimension input 3),
    size "INPUT_HEIGHT" (← dimension input 1),
    size "INPUT_WIDTH" (← dimension input 2),
    size "CONV_FILTERS" c.filters,
    size "CONV_KERNEL_SIZE_Y" (c.kernelSize.getD 0 1),
    size "CONV_KERNEL_SIZE_X" (c.kernelSize.getD 1 1),
    size "CONV_STRIDE_Y" (c.strides.getD 0 1),
    size "CONV_STRIDE_X" (c.strides.getD 1 1),
    size "CONV_GROUPS" (max c.groups 1),
    ⟨"CHANNELS_PER_GROUP", .quotient "INPUT_CHANNELS" "CONV_GROUPS"⟩,
    ⟨"FILTERS_PER_GROUP", .quotient "CONV_FILTERS" "CONV_GROUPS"⟩,
    size "ZEROPADDING_TOP" (c.padding.getD 0 (0, 0)).1,
    size "ZEROPADDING_LEFT" (c.padding.getD 1 (0, 0)).1,
    size "CONV_OUTHEIGHT" (← dimension output 1),
    size "CONV_OUTWIDTH" (← dimension output 2)] ++
    weightConstants l ++ numberConstants l

/-- The kernel of a convolution over two dimensions. -/
def conv2DKernel : Parameter :=
  parameter "kernel"
    ["CONV_FILTERS", "CONV_KERNEL_SIZE_Y", "CONV_KERNEL_SIZE_X", "CHANNELS_PER_GROUP"]

/-- A convolution over two dimensions. -/
def conv2D (l : BoundLayer) (c : Convolution) : Except Failure LayerFile := do
  let input ← l.inputOfRank 0 4
  let output ← l.outputOfRank 4
  let constants ← conv2DConstants l c input output
  let stored ← storeWeighted l c.activation c.bias.isSome "output[pos_y][pos_x][k]"
  return {
    constants := constants
    parameters :=
      [parameter "input" ["INPUT_HEIGHT", "INPUT_WIDTH", "INPUT_CHANNELS"], conv2DKernel] ++
      if c.bias.isSome then [convBias] else []
    body := lines ["int pos_y, pos_x, k, y, x, z;", "LONG_NUMBER_T output_acc;", ""] ++
      count "pos_y" "CONV_OUTHEIGHT" (count "pos_x" "CONV_OUTWIDTH" (count "k" "CONV_FILTERS" (
        line "output_acc = 0;" ++
        count "y" "CONV_KERNEL_SIZE_Y" (
          line "int input_y = pos_y * CONV_STRIDE_Y - ZEROPADDING_TOP + y;" ++
          skipPadding "input_y" "INPUT_HEIGHT" ++
          count "x" "CONV_KERNEL_SIZE_X" (
            line "int input_x = pos_x * CONV_STRIDE_X - ZEROPADDING_LEFT + x;" ++
            skipPadding "input_x" "INPUT_WIDTH" ++
            count "z" "CHANNELS_PER_GROUP"
              (line ("output_acc += (LONG_NUMBER_T)kernel[k][y][x][z] * " ++
                s!"(LONG_NUMBER_T)input[input_y][input_x][{groupChannel}];")))) ++
        blank ++ stored))) }

/-- Batch normalization. -/
def batchNorm (l : BoundLayer) (b : BatchNorm) : Except Failure LayerFile := do
  let input ← l.inputShape 0
  let elements ← input.countSample
  let stored ← storeWeighted l b.activation true "o[x + k]"
  return {
    constants :=
      [size "INPUT_CHANNELS" (input.getLast?.getD 0), size "INPUT_SIZE" elements] ++
      weightConstants l ++ numberConstants l
    parameters := [.ofShape "input" input, parameter "kernel" ["INPUT_CHANNELS"],
      parameter "bias" ["INPUT_CHANNELS"]]
    body := flatPointers ++ lines ["size_t x, k;", "LONG_NUMBER_T output_acc;", ""] ++
      stride "x" "INPUT_SIZE" "INPUT_CHANNELS" (count "k" "INPUT_CHANNELS" (
        line "output_acc = (LONG_NUMBER_T)i[x + k] * (LONG_NUMBER_T)kernel[k];" ++ stored)) }

end NeuralC.C
