import NeuralC.Layer
import NeuralC.Model.Line

/-!
# NeuralC.Model.Declaration

From the declaration of a layer to its kind: which parameters each kind
knows, how their values are read, what stands in for a missing one, and which
weights the kind owns.  A batch normalization owns either a folded kernel and
bias or the running statistics to fold.
-/

namespace NeuralC.Model

open NeuralC.Text

/-- The line of the weight of a layer and a role. -/
def weight? (weights : List WeightLine) (layer role : String) : Option WeightLine :=
  weights.find? fun w => w.layer = layer ∧ w.role = role

namespace LayerLine

/-! ## Parameters -/

/-- A report about the line of a layer. -/
def fault {α : Type} (d : LayerLine) (cause : ModelCause) : Except Diagnostic α :=
  .error (.parse d.line cause)

/-- The value of a parameter; the first one counts. -/
def param? (d : LayerLine) (key : String) : Option String :=
  (d.params.find? (·.1 = key)).map (·.2)

/-- Refuses parameters that are not listed. -/
def allow (d : LayerLine) (keys : List String) : Except Diagnostic Unit :=
  match d.params.find? (fun p => !keys.contains p.1) with
  | some (key, _) => d.fault (.unknownParameter key d.kind)
  | none => .ok ()

/-- Reads one value of a parameter. -/
def parse {α : Type} (d : LayerLine) (key : String) (read : List Char → Option α)
    (text : List Char) : Except Diagnostic α :=
  match read text with
  | some a => .ok a
  | none => d.fault (.badValue (String.ofList text) key)

/-- A parameter with one value. -/
def number {α : Type} (d : LayerLine) (key : String) (read : List Char → Option α) (default : α) :
    Except Diagnostic α :=
  match d.param? key with
  | some text => d.parse key read text.toList
  | none => .ok default

/-- A parameter with values between commas. -/
def numberList {α : Type} (d : LayerLine) (key : String) (read : List Char → Option α)
    (default : List α) : Except Diagnostic (List α) :=
  match d.param? key with
  | some text => (fields ',' text.toList).mapM (d.parse key read)
  | none => .ok default

/-- The activation parameter; linear when there is none. -/
def activation (d : LayerLine) : Except Diagnostic Activation :=
  match d.param? "activation" with
  | none => .ok .linear
  | some text =>
    match Activation.read text with
    | .ok a => .ok a
    | .error w => d.fault (.unknownActivation w)

/-- The padding parameter: `before:after` or one number for both, for each
spatial dimension. -/
def padding (d : LayerLine) (rank : Nat) : Except Diagnostic (List (Nat × Nat)) :=
  match d.param? "padding" with
  | none => .ok (List.replicate rank (0, 0))
  | some text => (fields ',' text.toList).mapM fun pair => do
    let (before, after) := (cutFirst ':' pair).getD (pair, pair)
    return (← d.parse "padding" size? before, ← d.parse "padding" size? after)

/-- The ranges of a slice: `start:stop:step` for each dimension. -/
def slices (d : LayerLine) : Except Diagnostic (List SliceRange) :=
  match d.param? "slices" with
  | none => d.fault .noSlices
  | some text => (fields ',' text.toList).mapM fun range =>
    match fields ':' range with
    | [start, stop, step] => do
      return ⟨← d.parse "slices" size? start, ← d.parse "slices" size? stop,
        ← d.parse "slices" size? step⟩
    | _ => d.fault (.badSlice (String.ofList range))

/-- The last dimension of the output. -/
def lastDimension (d : LayerLine) : Nat := d.output.getLast?.getD 0

/-! ## Kinds -/

/-- The line of a weight that the layer cannot do without. -/
def require (d : LayerLine) (weights : List WeightLine) (role : String) :
    Except Diagnostic WeightLine :=
  match weight? weights d.name role with
  | some w => .ok w
  | none => d.fault (.missingWeights d.name role)

/-- The sizes of a kernel between its filters and its channels. -/
def spatialSizes (kernel : Shape) : List Nat :=
  if kernel.length ≤ 2 then [1] else (kernel.drop 1).dropLast

/-- A convolution over `rank` spatial dimensions. -/
def convolution (d : LayerLine) (weights : List WeightLine) (rank : Nat) :
    Except Diagnostic Convolution := do
  d.allow ["filters", "kernel_size", "strides", "groups", "padding", "activation"]
  let kernel ← d.require weights "kernel"
  return {
    filters := ← d.number "filters" size? d.lastDimension
    kernelSize := ← d.numberList "kernel_size" size? (spatialSizes kernel.shape)
    strides := ← d.numberList "strides" size? (List.replicate rank 1)
    groups := ← d.number "groups" size? 1
    padding := ← d.padding rank
    activation := ← d.activation
    kernel := kernel.tensor
    bias := (weight? weights d.name "bias").map (·.tensor) }

/-- A fully connected layer. -/
def dense (d : LayerLine) (weights : List WeightLine) : Except Diagnostic Dense := do
  d.allow ["units", "activation"]
  return {
    units := ← d.number "units" size? d.lastDimension
    activation := ← d.activation
    kernel := (← d.require weights "kernel").tensor
    bias := (weight? weights d.name "bias").map (·.tensor) }

/-- A pooling over `rank` spatial dimensions; its strides are its sizes unless
given. -/
def pooling (d : LayerLine) (rank : Nat) : Except Diagnostic Pooling := do
  d.allow ["pool_size", "strides", "activation"]
  let size ← d.numberList "pool_size" size? (List.replicate rank 2)
  return {
    size := size
    strides := ← d.numberList "strides" size? size
    activation := ← d.activation }

/-- A batch normalization, given folded or as running statistics.  A missing
`gamma` is ones and a missing `beta` zeros. -/
def batchNorm (d : LayerLine) (weights : List WeightLine) : Except Diagnostic BatchNorm := do
  d.allow ["activation", "epsilon"]
  let activation ← d.activation
  match weight? weights d.name "kernel" with
  | some kernel =>
    if (d.param? "epsilon").isSome then d.fault .uselessEpsilon
    else return ⟨activation, kernel.tensor, (← d.require weights "bias").tensor⟩
  | none =>
    let mean := (← d.require weights "moving_mean").values
    let variance := (← d.require weights "moving_variance").values
    let gamma := ((weight? weights d.name "gamma").map (·.values)).getD
      (mean.map fun _ => Float32.ofBits 0x3F800000)
    let beta := ((weight? weights d.name "beta").map (·.values)).getD
      (mean.map fun _ => Float32.ofBits 0)
    let epsilon ← d.number "epsilon" float32? (Float32.ofScientific 1 true 3)
    match BatchNorm.ofStatistics? gamma beta mean variance epsilon activation with
    | some b => return b
    | none =>
      let cause := .statisticsLength d.name gamma.length beta.length mean.length variance.length
      d.fault cause

/-- The normalization of a sample normalization layer. -/
def normMode (d : LayerLine) : Except Diagnostic NormMode :=
  let text := (d.param? "mode").getD "minmax"
  if text = "minmax" then .ok .minMax
  else if text = "zscore" then .ok .zScore
  else d.fault (.unknownNorm text)

/-- The kind of a layer other than the input. -/
def layerKind (d : LayerLine) (weights : List WeightLine) : Except Diagnostic LayerKind := do
  match d.kind with
  | "conv1d" => return .conv1D (← d.convolution weights 1)
  | "conv2d" => return .conv2D (← d.convolution weights 2)
  | "dense" => return .dense (← d.dense weights)
  | "maxpool1d" => return .maxPool1D (← d.pooling 1)
  | "maxpool2d" => return .maxPool2D (← d.pooling 2)
  | "avgpool1d" => return .avgPool1D (← d.pooling 1)
  | "avgpool2d" => return .avgPool2D (← d.pooling 2)
  | "batchnorm1d" => return .batchNorm1D (← d.batchNorm weights)
  | "batchnorm2d" => return .batchNorm2D (← d.batchNorm weights)
  | "activation" =>
    d.allow ["activation"]
    return .activation (← d.activation)
  | "add" =>
    d.allow ["activation"]
    return .add (← d.activation)
  | "flatten" =>
    d.allow []
    return .flatten
  | "identity" =>
    d.allow []
    return .identity
  | "dropout" =>
    d.allow ["rate"]
    return .dropout (← d.number "rate" float32? (Float32.ofBits 0x3F000000))
  | "zeropadding1d" =>
    d.allow ["padding"]
    return .zeroPadding1D (← d.padding 1)
  | "zeropadding2d" =>
    d.allow ["padding"]
    return .zeroPadding2D (← d.padding 2)
  | "concatenate" =>
    d.allow ["axis"]
    return .concatenate (← d.number "axis" signed64? (-1))
  | "slice" =>
    d.allow ["slices"]
    return .slice (← d.slices)
  | "sum" =>
    d.allow ["dims"]
    return .sum (← d.numberList "dims" signed64? [-1])
  | "samplenorm" =>
    d.allow ["mode"]
    return .sampleNorm (← d.normMode)
  | "permute" =>
    d.allow ["dims"]
    return .permute (← d.numberList "dims" size? [])
  | "upsample" =>
    d.allow ["scale_factor"]
    return .upsample (← d.numberList "scale_factor" size? [2])
  | other => d.fault (.unknownKind other)

/-- The roles of the weights that a layer uses. -/
def roles (d : LayerLine) (weights : List WeightLine) : List String :=
  match d.kind with
  | "conv1d" | "conv2d" | "dense" => ["kernel", "bias"]
  | "batchnorm1d" | "batchnorm2d" =>
    if (weight? weights d.name "kernel").isSome then ["kernel", "bias"]
    else ["moving_mean", "moving_variance", "gamma", "beta"]
  | _ => []

end LayerLine

end NeuralC.Model
