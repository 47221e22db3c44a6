import NeuralC.Activation
import NeuralC.Number
import NeuralC.Text.Bracketed
import NeuralC.Text.Hidden

/-!
# NeuralC.Diagnostic.Cause

Why a step of the compiler can fail, one type per kind of failure, each with
the words that report it.  Layers are named by the diagnostic that carries the
cause; a cause names only what else is involved.
-/

namespace NeuralC

/-! ## The graph -/

/-- Why a graph, or a change of it, is malformed. -/
inductive StructuralCause where
  /-- An input is added to a graph that has one. -/
  | inputExists
  /-- The first node of a graph is not an input. -/
  | firstNotInput (kind : String)
  /-- A node is inserted before there is an input. -/
  | noInput
  /-- A neighbour named by its handle is not in the graph. -/
  | unknownNeighbour (handle : Nat)
  /-- A node would come before the input. -/
  | beforeInput
  /-- A predecessor stands at or after the place of the new node. -/
  | latePredecessor (name : String)
  /-- The node to delete is not in the graph. -/
  | notInGraph
  /-- The input cannot be deleted. -/
  | deletesInput
  /-- The node to replace is not in the graph. -/
  | replacesUnknown (handle : Nat)
  /-- The input can only give way to an input. -/
  | replacesInput
  /-- The graph has no node. -/
  | emptyGraph
  /-- A handle of the order has no node. -/
  | missingNode
  /-- Two layers share a name. -/
  | duplicateName
  /-- The first node is not an input, or has predecessors. -/
  | firstNotSource
  /-- A later node is an input as well. -/
  | secondInput
  /-- A later node reads nothing. -/
  | noPredecessors
  /-- A node in front of the last feeds nothing. -/
  | innerSink
  /-- The last node feeds another. -/
  | lastFeeds
  /-- A predecessor is not in the graph. -/
  | danglingPredecessor (handle : Nat)
  /-- A predecessor does not list the edge as often as its reader. -/
  | unmatchedFrom (name : String)
  /-- A predecessor stands later in the order. -/
  | laterPredecessor (name : String)
  /-- A successor is not in the graph. -/
  | danglingSuccessor (handle : Nat)
  /-- A successor does not list the edge as often as its producer. -/
  | unmatchedTo (name : String)
  /-- The layer to fold away is not a padding layer. -/
  | notPadding
  /-- A consumer cannot take over the padding in front of it. -/
  | cannotAbsorb (kind : String) (rank : Nat)
  /-- The layer to fuse is not an activation. -/
  | notActivation
  /-- An activation to fuse has other than one input. -/
  | activationArity (inputs : Nat)
  /-- The producer has no activation field. -/
  | noActivationField (activation : String)
  /-- The producer's activation does not compose with the one to fuse. -/
  | cannotCompose (activation : String) (field : Activation)
  /-- No character of a name can stand in an identifier. -/
  | noIdentifier
  /-- Two names become the same identifier. -/
  | identifierTaken (identifier : String)
  /-- The input sample has the wrong length. -/
  | sampleLength (expected found : Nat)
  /-- A layer kind that is not evaluated. -/
  | notEvaluated (kind : String)
  /-- An activation that is not evaluated. -/
  | activationNotEvaluated (activation : Activation)
  /-- A shape that should be batch, samples and channels. -/
  | notRankThree (shape : List Nat)
  /-- Evaluation of a graph without nodes. -/
  | nothingToEvaluate
  /-- A layer that no code is generated for. -/
  | leftover (kind : String)
  /-- A module of another framework was named in place of a model file. -/
  | moduleNotSupported
  /-- A failure reported by another rendering service. -/
  | other (reason : String)
deriving DecidableEq, Repr

/-- The words for a structural cause. -/
def StructuralCause.message : StructuralCause → String
  | inputExists => "graph already has an input"
  | firstNotInput kind => s!"first node must be an Input layer, got {kind}"
  | noInput => "graph has no input node"
  | unknownNeighbour handle => s!"neighbour n{handle} is not in the graph"
  | beforeInput => "cannot insert before the graph input"
  | latePredecessor name => s!"predecessor '{name}' does not precede the insertion point"
  | notInGraph => "node is not in the graph"
  | deletesInput => "cannot delete the graph input"
  | replacesUnknown handle => s!"node n{handle} is not in the graph"
  | replacesInput => "graph input can only be replaced by an Input layer"
  | emptyGraph => "graph is empty"
  | missingNode => "ordered node is missing from the arena"
  | duplicateName => "duplicate layer name"
  | firstNotSource => "first node must be an Input without predecessors"
  | secondInput => "graph has more than one input"
  | noPredecessors => "node has no predecessors"
  | innerSink => "only the last node may be a sink"
  | lastFeeds => "last node must not have successors"
  | danglingPredecessor handle => s!"dangling predecessor n{handle}"
  | unmatchedFrom name => s!"edge from '{name}' is not mutual"
  | laterPredecessor name => s!"predecessor '{name}' comes later in the order"
  | danglingSuccessor handle => s!"dangling successor n{handle}"
  | unmatchedTo name => s!"edge to '{name}' is not mutual"
  | notPadding => "expected a zero padding layer"
  | cannotAbsorb kind rank => s!"{kind} cannot absorb {rank}D padding"
  | notActivation => "expected an activation layer"
  | activationArity inputs => s!"cannot fuse an activation with {inputs} inputs"
  | noActivationField activation => s!"cannot fuse '{activation}': layer has no activation field"
  | cannotCompose activation field =>
    s!"cannot fuse '{activation}' onto a {field.name} activation"
  | noIdentifier => "name has no valid C identifier characters"
  | identifierTaken identifier => s!"renamed to '{identifier}' which is already used"
  | sampleLength expected found => s!"expected {expected} input values, got {found}"
  | notEvaluated kind => s!"{kind} is not supported by the reference evaluator"
  | activationNotEvaluated activation => s!"cannot evaluate activation {activation.name}"
  | notRankThree shape => s!"expected a rank 3 shape, got {Text.showNats shape}"
  | nothingToEvaluate => "cannot evaluate an empty graph"
  | leftover kind => s!"{kind} layer must be removed by the optimizer before code generation"
  | moduleNotSupported => "PyTorch modules cannot be imported, export the model to .nnir first"
  | other reason => reason

/-! ## Validation -/

/-- The rules a model is validated against. -/
inductive Rule where
  | activationLegality
  | batchNormShape
  | flattenArity
  | globalSumPooling
  | roundModePresence
deriving DecidableEq, Repr

/-- The words for a rule. -/
def Rule.name : Rule → String
  | activationLegality => "activation legality"
  | batchNormShape => "batchnorm shape"
  | flattenArity => "flatten arity"
  | globalSumPooling => "global sum pooling placement"
  | roundModePresence => "round mode presence"

/-- Why a layer breaks a rule. -/
inductive ValidationCause where
  /-- Softmax as the activation of another layer. -/
  | softmaxCombined (kind : String)
  /-- An activation that cannot be generated. -/
  | activationUnsupported (activation : Activation)
  /-- A parameter that does not fit the channels of the input. -/
  | parameterShape (role : String) (shape : List Nat) (input : Option (List Nat))
  /-- A flatten layer with other than one input. -/
  | flattenInputs
  /-- A flatten layer with other than one output shape. -/
  | flattenOutputs
  /-- A flatten layer that changes the number of elements. -/
  | flattenElements (input output : Nat)
  /-- A sum that feeds another layer. -/
  | sumNotLast
  /-- A sum with other than one input. -/
  | sumInputs
  /-- A sum over an input of another rank. -/
  | sumRank (rank : Nat)
  /-- A sum over the wrong dimensions. -/
  | sumDims (rank : Nat) (expected found : List Int)
  /-- An integer layer without output rounding. -/
  | noRoundMode
  /-- A reason given as text. -/
  | other (reason : String)
deriving DecidableEq, Repr

/-- The words for a validation cause. -/
def ValidationCause.message : ValidationCause → String
  | softmaxCombined kind => s!"softmax must be a standalone layer, not combined with {kind}"
  | activationUnsupported activation =>
    s!"activation function {activation.name} is not supported"
  | parameterShape role shape input =>
    s!"{role} with shape {Text.showNats shape} does not match last dimension of input shape " ++
      Text.showOption (input.map Text.showNats)
  | flattenInputs => "flatten should only have one input"
  | flattenOutputs => "flatten should only have one output shape"
  | flattenElements input output =>
    s!"input has {input} elements but output shape has {output}"
  | sumNotLast => "sum is only supported as the last layer"
  | sumInputs => "global sum pooling should only have one input"
  | sumRank rank =>
    s!"input should have 3 (N, S, C) or 4 (N, H, W, C) dimensions, got {rank}"
  | sumDims rank expected found =>
    s!"rank {rank} input must reduce over {Text.showInts expected}, got {Text.showInts found}"
  | noRoundMode => "output round mode must be set for integer layers"
  | other reason => reason

/-! ## Quantization -/

/-- Why one conversion to fixed point is refused. -/
inductive ConversionCause where
  /-- No integer type has this width. -/
  | unsupportedWidth (width : Nat)
  /-- Values cannot be rounded in this mode. -/
  | unsupportedRoundMode (mode : RoundMode)
deriving DecidableEq, Repr

/-- The words for a conversion cause. -/
def ConversionCause.message : ConversionCause → String
  | unsupportedWidth width => s!"no integer data type for width {width}, supported: 8, 16, 32"
  | unsupportedRoundMode mode => s!"unsupported round mode {mode.name}, supported: floor, nearest"

/-- Why a layer cannot be annotated or quantized. -/
inductive QuantizationCause where
  /-- A layer carries no record. -/
  | noRecord
  /-- An integer layer has no scale factor for its weights. -/
  | noWeightsScale
  /-- An integer layer has no rounding for its weights. -/
  | noWeightsRound
  /-- A weight cannot be converted. -/
  | conversion (cause : ConversionCause)
  /-- Fixed point was asked for without calibration data. -/
  | noCalibration
  /-- A layer has no entry, and none follows it. -/
  | nothingToBorrow
  /-- The entry found for a layer is gone. -/
  | entryVanished
  /-- The predecessor to take the record from has none. -/
  | predecessorWithoutRecord (name : String)
  /-- A reason given as text. -/
  | other (reason : String)
deriving DecidableEq, Repr

/-- The words for a quantization cause. -/
def QuantizationCause.message : QuantizationCause → String
  | noRecord => "no quantization information"
  | noWeightsScale => "no weights scale factor"
  | noWeightsRound => "no weights round mode"
  | conversion cause => cause.message
  | noCalibration => "no calibration data available, required for fixed-point quantization"
  | nothingToBorrow => "no quantization information and no subsequent layer to borrow from"
  | entryVanished => "calibration entry disappeared"
  | predecessorWithoutRecord name => s!"predecessor '{name}' has no quantization information"
  | other reason => reason

/-! ## Allocation -/

/-- Why the output of a layer cannot be placed in memory. -/
inductive AllocationCause where
  /-- A position has no live range. -/
  | noLiveRange
  /-- A layer that overwrites its input has other than one. -/
  | overwriteInputs (found : Nat)
  /-- The input to overwrite lives in no pool. -/
  | overwriteUnplaced (name : String)
  /-- A reason given as text. -/
  | other (reason : String)
deriving DecidableEq, Repr

/-- The words for an allocation cause. -/
def AllocationCause.message : AllocationCause → String
  | noLiveRange => "missing liveness information"
  | overwriteInputs found => s!"need exactly one input when overwriting input, found {found}"
  | overwriteUnplaced name => s!"input '{name}' is not allocated in exactly one pool"
  | other reason => reason

/-! ## Input text -/

/-- Why a line of calibration data cannot be read. -/
inductive CalibrationCause where
  /-- A line with other than eight fields. -/
  | fieldCount (found : Nat)
  /-- A scale factor that is no number. -/
  | badScale (field : String)
  /-- An unknown round mode. -/
  | badRoundMode (word : String)
  /-- A reason given as text. -/
  | other (reason : String)
deriving DecidableEq, Repr

/-- The words for a calibration cause. -/
def CalibrationCause.message : CalibrationCause → String
  | fieldCount found => s!"expected 8 comma-separated fields, found {found}"
  | badScale field => s!"invalid scale factor '{field}'"
  | badRoundMode word => RoundMode.unknownMessage word
  | other reason => reason

/-- Why a model description cannot be read. -/
inductive ModelCause where
  /-- A line that is neither a layer nor a weight. -/
  | unknownLine (head : String) (found : Option Char)
  /-- A character is missing. -/
  | expected (wanted : Char) (found : Option Char)
  /-- A word is missing. -/
  | expectedWord (found : Option Char)
  /-- A parameter has no value. -/
  | expectedValue
  /-- A layer has no output shape. -/
  | noShape (name : String)
  /-- A dimension that is no size. -/
  | badDimension (word : String)
  /-- Text after the end of a line's statement. -/
  | trailing (rest : String)
  /-- A weight that names no role. -/
  | noRole (target : String)
  /-- A weight value that is no number. -/
  | badWeight (word : String)
  /-- A weight with too few or too many values. -/
  | weightCount (shape : List Nat) (needed found : Nat)
  /-- Two lines for one weight. -/
  | duplicateWeights (target : String)
  /-- A model without layers. -/
  | noLayer
  /-- The first layer is not the input. -/
  | firstNotInput
  /-- Two layers of one name. -/
  | declaredTwice (name : String)
  /-- A layer reads one that is not declared before it. -/
  | unknownInput (name : String)
  /-- A layer reads nothing. -/
  | noInputs (name : String)
  /-- A layer of an unknown kind. -/
  | unknownKind (kind : String)
  /-- A parameter the kind does not have. -/
  | unknownParameter (key kind : String)
  /-- A parameter value that cannot be read. -/
  | badValue (value key : String)
  /-- An unknown activation. -/
  | unknownActivation (word : String)
  /-- A slice layer without ranges. -/
  | noSlices
  /-- A slice range that is not three numbers. -/
  | badSlice (range : String)
  /-- An unknown sample normalization. -/
  | unknownNorm (mode : String)
  /-- A weight the layer needs is missing. -/
  | missingWeights (layer role : String)
  /-- An epsilon next to folded batch normalization weights. -/
  | uselessEpsilon
  /-- Batch normalization statistics of different lengths. -/
  | statisticsLength (name : String) (gamma beta mean variance : Nat)
  /-- A weight that no layer uses. -/
  | unusedWeights (layer role : String)
  /-- A reason given as text. -/
  | other (reason : String)
deriving DecidableEq, Repr

/-- The words for a model cause. -/
def ModelCause.message : ModelCause → String
  | unknownLine head found =>
    s!"expected '=' or '[' after '{head}', found {Text.foundChar found}"
  | expected wanted found => s!"expected '{wanted}' but found {Text.foundChar found}"
  | expectedWord found => s!"expected identifier but found {Text.foundChar found}"
  | expectedValue => "expected a value"
  | noShape name => s!"missing output shape of '{name}'"
  | badDimension word => s!"invalid dimension '{word}'"
  | trailing rest => s!"unexpected trailing text '{rest}'"
  | noRole target => s!"weights target '{target}' should be <layer>.<role>"
  | badWeight word => s!"invalid value '{word}'"
  | weightCount shape needed found =>
    s!"shape {Text.showNats shape} needs {needed} values, found {found}"
  | duplicateWeights target => s!"duplicate weights for {target}"
  | noLayer => "model declares no layer"
  | firstNotInput => "the first layer must be `input()`"
  | declaredTwice name => s!"layer '{name}' is declared twice"
  | unknownInput name => s!"unknown input layer '{name}'"
  | noInputs name => s!"layer '{name}' has no input"
  | unknownKind kind => s!"unknown layer kind '{kind}'"
  | unknownParameter key kind => s!"unknown parameter '{key}' for {kind}"
  | badValue value key => s!"invalid value '{value}' for {key}"
  | unknownActivation word => Activation.unknownMessage word
  | noSlices => "slice needs a slices parameter"
  | badSlice range => s!"slice range '{range}' should be start:stop:step"
  | unknownNorm mode => s!"unknown samplenorm mode '{mode}'"
  | missingWeights layer role => s!"missing weights {layer}.{role}"
  | uselessEpsilon => "epsilon only applies to batchnorm statistics"
  | statisticsLength name gamma beta mean variance =>
    s!"batchnorm statistics of '{name}' differ in length " ++
      s!"(gamma {gamma}, beta {beta}, mean {mean}, variance {variance})"
  | unusedWeights layer role => s!"weights {layer}.{role} do not belong to any layer parameter"
  | other reason => reason

/-! ## Rendering -/

/-- Why a source file cannot be rendered from its layer. -/
inductive RenderCause where
  /-- A layer file is rendered without a layer. -/
  | noLayerBound
  /-- A layer carries no record. -/
  | noRecord (layer : String)
  /-- A layer has no shape for one of its inputs. -/
  | noInputShape (layer : String) (index : Nat)
  /-- An input of the wrong rank. -/
  | inputRank (layer : String) (rank : Nat) (shape : List Nat)
  /-- An output of the wrong rank. -/
  | outputRank (layer : String) (rank : Nat) (shape : List Nat)
  /-- An activation that cannot be part of another layer's code. -/
  | activationNotInline (layer : String) (activation : Activation)
  /-- A layer kind without code. -/
  | noImplementation (layer kind : String)
  /-- A sum over an input of another rank. -/
  | sumRank (layer : String) (rank : Nat)
  /-- An axis outside the output. -/
  | concatenateAxis (layer : String) (axis : Int) (rank : Nat)
  /-- An operand of another rank than the output. -/
  | concatenateRank (layer : String) (index rank whole : Nat)
  /-- A permutation that does not fit the input. -/
  | permutation (layer : String) (order input : List Nat)
  /-- An upsampling between shapes of other ranks. -/
  | upsample (layer : String) (input output : List Nat)
  /-- A model file of a graph without nodes. -/
  | emptyGraph
  /-- A model file of a graph with nothing but an input. -/
  | noComputedLayer
  /-- A reason given as text. -/
  | other (reason : String)
deriving DecidableEq, Repr

/-- The words for a rendering cause. -/
def RenderCause.message : RenderCause → String
  | noLayerBound => "no layer bound to a per-layer template"
  | noRecord layer => s!"{layer}: no quantization information"
  | noInputShape layer index => s!"{layer}: no shape for input {index}"
  | inputRank layer rank shape =>
    s!"{layer}: expected a rank {rank} input, got {Text.showNats shape}"
  | outputRank layer rank shape =>
    s!"{layer}: expected a rank {rank} output, got {Text.showNats shape}"
  | activationNotInline layer activation =>
    s!"{layer}: activation {activation.name} cannot be generated inline"
  | noImplementation layer kind => s!"{layer}: no implementation template for {kind}"
  | sumRank layer rank => s!"{layer}: global sum pooling over a rank {rank} input"
  | concatenateAxis layer axis rank =>
    s!"{layer}: cannot concatenate along axis {axis} of a rank {rank} output"
  | concatenateRank layer index rank whole =>
    s!"{layer}: input {index} has rank {rank}, output has rank {whole}"
  | permutation layer order input =>
    s!"{layer}: permutation {Text.showNats order} does not fit input shape {Text.showNats input}"
  | upsample layer input output =>
    s!"{layer}: cannot upsample {Text.showNats input} to {Text.showNats output}"
  | emptyGraph => "empty graph"
  | noComputedLayer => "the model has no computed layer"
  | other reason => reason

/-! ## Files -/

/-- Why the file system refuses an operation. -/
inductive FileCause where
  | notFound
  | exists
  | notDirectory
  | isDirectory
  /-- A path, or a name in it, is too long. -/
  | nameTooLong
  /-- A path holds a NUL character, which ends it for the system. -/
  | nulInName
  | notUtf8
  /-- Any other reason, as text. -/
  | other (reason : String)
deriving DecidableEq, Repr

/-- The words for a file cause. -/
def FileCause.message : FileCause → String
  | notFound => "No such file or directory (os error 2)"
  | .exists => "File exists (os error 17)"
  | notDirectory => "Not a directory (os error 20)"
  | isDirectory => "Is a directory (os error 21)"
  | nameTooLong => "File name too long (os error 36)"
  | nulInName => "file name contained an unexpected NUL byte"
  | notUtf8 => "stream did not contain valid UTF-8"
  | other reason => reason

end NeuralC
