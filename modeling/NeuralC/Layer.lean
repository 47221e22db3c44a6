import NeuralC.Activation
import NeuralC.Tensor

/-!
# NeuralC.Layer

The vocabulary of layers.  A `Layer` has a name, the shapes it reads and
writes, batch dimension first, and a `LayerKind` with the parameters of its
kind.  What the compiler asks of a layer is answered here kind by kind: which
weights it owns, whether it carries an activation or a padding, whether it
works in place.
-/

namespace NeuralC

/-! ## Parameters -/

/-- The element type of a layer output. -/
inductive OutputType where
  | float32
  | int8
  | int16
  | int32
deriving DecidableEq, Repr

/-- The word for an output type. -/
def OutputType.name : OutputType → String
  | float32 => "float32"
  | int8 => "int8"
  | int16 => "int16"
  | int32 => "int32"

/-- The weights a layer can own. -/
inductive Role where
  | kernel
  | bias
deriving DecidableEq, Repr

/-- The word for a role. -/
def Role.name : Role → String
  | kernel => "kernel"
  | bias => "bias"

/-- The flavours of sample normalization. -/
inductive NormMode where
  | minMax
  | zScore
deriving DecidableEq, Repr

/-- The word for a normalization. -/
def NormMode.name : NormMode → String
  | minMax => "minmax"
  | zScore => "zscore"

/-- Every `step`-th index from `start` up to `stop`. -/
structure SliceRange where
  start : Nat
  stop : Nat
  step : Nat
deriving DecidableEq, Repr

/-- A convolution over one or two spatial dimensions.  The kernel has the
filters outermost and the input channels of one group innermost; the padding
gives the zeros before and after each spatial dimension. -/
structure Convolution where
  filters : Nat
  kernelSize : List Nat
  strides : List Nat
  groups : Nat
  padding : List (Nat × Nat)
  activation : Activation
  kernel : Tensor
  bias : Option Tensor
deriving DecidableEq, Repr

/-- A fully connected layer; the kernel has one row per unit. -/
structure Dense where
  units : Nat
  activation : Activation
  kernel : Tensor
  bias : Option Tensor
deriving DecidableEq, Repr

/-- The window of a pooling layer. -/
structure Pooling where
  size : List Nat
  strides : List Nat
  activation : Activation
deriving DecidableEq, Repr

/-- Batch normalization as one factor and one offset per channel. -/
structure BatchNorm where
  activation : Activation
  kernel : Tensor
  bias : Tensor
deriving DecidableEq, Repr

namespace BatchNorm

/-- Factor and offset of one channel. -/
def fold (gamma beta mean variance epsilon : Float32) : Float32 × Float32 :=
  let deviation := (variance + epsilon).sqrt
  (gamma / deviation, beta - gamma * mean / deviation)

/-- Folds running statistics, one of each per channel. -/
def ofStatistics? (gamma beta mean variance : List Float32) (epsilon : Float32)
    (activation : Activation) : Option BatchNorm :=
  if beta.length ≠ gamma.length ∨ mean.length ≠ gamma.length ∨ variance.length ≠ gamma.length then
    none
  else
    let channels := ((gamma.zip beta).zip (mean.zip variance)).map fun ((g, b), (m, v)) =>
      fold g b m v epsilon
    some ⟨activation, .vector (channels.map (·.1)), .vector (channels.map (·.2))⟩

end BatchNorm

/-! ## Kinds -/

/-- What a layer computes. -/
inductive LayerKind where
  | input
  | conv1D (c : Convolution)
  | conv2D (c : Convolution)
  | dense (d : Dense)
  | maxPool1D (p : Pooling)
  | maxPool2D (p : Pooling)
  | avgPool1D (p : Pooling)
  | avgPool2D (p : Pooling)
  | batchNorm1D (b : BatchNorm)
  | batchNorm2D (b : BatchNorm)
  | activation (a : Activation)
  | add (a : Activation)
  | flatten
  | dropout (rate : Float32)
  | identity
  | zeroPadding1D (padding : List (Nat × Nat))
  | zeroPadding2D (padding : List (Nat × Nat))
  | concatenate (axis : Int)
  | slice (ranges : List SliceRange)
  | sum (dims : List Int)
  | sampleNorm (mode : NormMode)
  | permute (dims : List Nat)
  | upsample (scale : List Nat)
deriving DecidableEq, Repr

namespace LayerKind

/-- The name of a kind. -/
def name : LayerKind → String
  | input => "Input"
  | conv1D _ => "Conv1D"
  | conv2D _ => "Conv2D"
  | dense _ => "Dense"
  | maxPool1D _ => "MaxPool1D"
  | maxPool2D _ => "MaxPool2D"
  | avgPool1D _ => "AvgPool1D"
  | avgPool2D _ => "AvgPool2D"
  | batchNorm1D _ => "BatchNorm1D"
  | batchNorm2D _ => "BatchNorm2D"
  | activation _ => "Activation"
  | add _ => "Add"
  | flatten => "Flatten"
  | dropout _ => "Dropout"
  | identity => "Identity"
  | zeroPadding1D _ => "ZeroPadding1D"
  | zeroPadding2D _ => "ZeroPadding2D"
  | concatenate _ => "Concatenate"
  | slice _ => "Slice"
  | sum _ => "Sum"
  | sampleNorm _ => "SampleNorm"
  | permute _ => "Permute"
  | upsample _ => "Upsample"

/-- The weights by role, the kernel first. -/
def weights : LayerKind → List (Role × Tensor)
  | conv1D c | conv2D c => (.kernel, c.kernel) :: (c.bias.map (Role.bias, ·)).toList
  | dense d => (.kernel, d.kernel) :: (d.bias.map (Role.bias, ·)).toList
  | batchNorm1D b | batchNorm2D b => [(.kernel, b.kernel), (.bias, b.bias)]
  | _ => []

/-- The layer with another tensor in place of a weight that it owns. -/
def setWeight (role : Role) (t : Tensor) : LayerKind → LayerKind
  | conv1D c => conv1D (match role with
      | .kernel => { c with kernel := t }
      | .bias => { c with bias := c.bias.map fun _ => t })
  | conv2D c => conv2D (match role with
      | .kernel => { c with kernel := t }
      | .bias => { c with bias := c.bias.map fun _ => t })
  | dense d => dense (match role with
      | .kernel => { d with kernel := t }
      | .bias => { d with bias := d.bias.map fun _ => t })
  | batchNorm1D b => batchNorm1D (match role with
      | .kernel => { b with kernel := t }
      | .bias => { b with bias := t })
  | batchNorm2D b => batchNorm2D (match role with
      | .kernel => { b with kernel := t }
      | .bias => { b with bias := t })
  | kind => kind

/-- The activation that a following activation layer can be merged into. -/
def fusableActivation? : LayerKind → Option Activation
  | conv1D c | conv2D c => some c.activation
  | dense d => some d.activation
  | maxPool1D p | maxPool2D p | avgPool1D p | avgPool2D p => some p.activation
  | batchNorm1D b | batchNorm2D b => some b.activation
  | add a => some a
  | _ => none

/-- The activation a layer carries. -/
def activation? : LayerKind → Option Activation
  | activation a => some a
  | kind => kind.fusableActivation?

/-- The layer with another activation, where it has one to merge into. -/
def setFusableActivation (a : Activation) : LayerKind → LayerKind
  | conv1D c => conv1D { c with activation := a }
  | conv2D c => conv2D { c with activation := a }
  | dense d => dense { d with activation := a }
  | maxPool1D p => maxPool1D { p with activation := a }
  | maxPool2D p => maxPool2D { p with activation := a }
  | avgPool1D p => avgPool1D { p with activation := a }
  | avgPool2D p => avgPool2D { p with activation := a }
  | batchNorm1D b => batchNorm1D { b with activation := a }
  | batchNorm2D b => batchNorm2D { b with activation := a }
  | add _ => add a
  | kind => kind

/-- The padding of a convolution, with its number of spatial dimensions. -/
def padding? : LayerKind → Option (Nat × List (Nat × Nat))
  | conv1D c => some (1, c.padding)
  | conv2D c => some (2, c.padding)
  | _ => none

/-- The convolution with another padding. -/
def setPadding (padding : List (Nat × Nat)) : LayerKind → LayerKind
  | conv1D c => conv1D { c with padding := padding }
  | conv2D c => conv2D { c with padding := padding }
  | kind => kind

/-- The padding of a padding layer, with its number of spatial dimensions. -/
def zeroPadding? : LayerKind → Option (Nat × List (Nat × Nat))
  | zeroPadding1D padding => some (1, padding)
  | zeroPadding2D padding => some (2, padding)
  | _ => none

end LayerKind

/-! ## Layers -/

/-- The number of elements of a shape, batch dimension left out. -/
def Shape.elements (shape : Shape) : Nat := Shape.size (shape.drop 1)

/-- A layer of a model. -/
structure Layer where
  name : String
  inputShapes : List Shape
  outputShapes : List Shape
  outputType : OutputType
  kind : LayerKind
deriving DecidableEq, Repr

namespace Layer

/-- The input layer of a model. -/
def source (name : String) (shape : Shape) : Layer :=
  ⟨name, [shape], [shape], .float32, .input⟩

/-- Whether the layer is an input. -/
def isInput (l : Layer) : Bool :=
  match l.kind with
  | .input => true
  | _ => false

/-- The first input shape; empty when there is none. -/
def inputShape (l : Layer) : Shape := l.inputShapes.head?.getD []

/-- The first output shape; empty when there is none. -/
def outputShape (l : Layer) : Shape := l.outputShapes.head?.getD []

/-- The number of output elements of one sample. -/
def outputElements (l : Layer) : Nat := l.outputShape.elements

/-- The weights by role, the kernel first. -/
def weights (l : Layer) : List (Role × Tensor) := l.kind.weights

/-- Whether some weight has elements. -/
def hasWeights (l : Layer) : Bool := l.weights.any fun (_, t) => !t.isEmpty

/-- Whether the output is written over the input. -/
def overwritesInput (l : Layer) : Bool :=
  match l.kind with
  | .flatten => true
  | _ => false

end Layer

end NeuralC
