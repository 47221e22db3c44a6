import NeuralC.C.Array
import NeuralC.Memory.Plan

/-!
# NeuralC.C.Template

The kinds of generated files.  A `Template` is known by a path; those of layers
belong to a family, which is the kind of layer they are for.  A `Scope` is what
a template is rendered from.
-/

namespace NeuralC.C

/-- A kind of generated file. -/
inductive Template where
  | layerHeader (family : String)
  | layerSource (family : String)
  | layerWeights (family : String)
  | defines
  | numbers
  | modelHeader
  | model
deriving DecidableEq, Repr

/-- The path of a template. -/
def Template.path : Template → String
  | layerHeader family => s!"include/layers/{family}.hh"
  | layerSource family => s!"layers/{family}.cc"
  | layerWeights family => s!"layers/weights/{family}.cc"
  | defines => "include/defines.hh"
  | numbers => "include/number.hh"
  | modelHeader => "include/model.hh"
  | model => "model.cc"

/-- The family of templates for a layer.  An input has none; layers that
simplification takes away must not be left. -/
def family? (l : Layer) : Except Diagnostic (Option String) :=
  match l.kind with
  | .input => .ok none
  | .avgPool1D _ => .ok (some "averagepool1d")
  | .avgPool2D _ => .ok (some "averagepool2d")
  | .conv1D _ => .ok (some "conv1d")
  | .conv2D _ => .ok (some "conv2d")
  | .dense _ => .ok (some "fc")
  | .maxPool1D _ => .ok (some "maxpool1d")
  | .maxPool2D _ => .ok (some "maxpool2d")
  | .activation _ => .ok (some "activation")
  | .flatten => .ok (some "flatten")
  | .batchNorm1D _ => .ok (some "batchnorm1d")
  | .batchNorm2D _ => .ok (some "batchnorm2d")
  | .add _ => .ok (some "add")
  | .sum _ => .ok (some "sum")
  | .concatenate _ => .ok (some "concatenate")
  | .slice _ => .ok (some "slice")
  | .sampleNorm _ => .ok (some "samplenorm")
  | .permute _ => .ok (some "permute")
  | .upsample _ => .ok (some "upsample")
  | .identity | .dropout _ | .zeroPadding1D _ | .zeroPadding2D _ =>
    .error (.structural l.name (.leftover l.kind.name) .emitting)

/-- What a template is rendered from: the whole model and, for the file of a
layer, that layer and its weights. -/
structure Scope where
  graph : Graph
  plan : Memory.Plan
  types : NumberTypes
  layer : Option Handle
  weights : List CArray
deriving DecidableEq, Repr

/-- A rendering service. -/
abbrev Engine := Template → Scope → Except Failure String

/-- A report that a template cannot be rendered. -/
def Template.fault {α : Type} (t : Template) (cause : RenderCause) : Except Failure α :=
  .error (.reported (.render t.path cause))

/-- The record of a layer that should have one. -/
def Template.recordOf (t : Template) (n : Node) : Except Failure QuantRecord :=
  match n.quant with
  | some q => .ok q
  | none => t.fault (.noRecord n.name)

end NeuralC.C
