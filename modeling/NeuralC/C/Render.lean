import NeuralC.C.Model
import NeuralC.C.Rearrange
import NeuralC.C.Reduction
import NeuralC.C.Weighted

/-!
# NeuralC.C.Render

The rendering service of the compiler: the text of every kind of file.
-/

namespace NeuralC.C

/-- The parts of the source file of a layer. -/
def layerFile (l : BoundLayer) : Except Failure LayerFile :=
  match l.node.layer.kind with
  | .dense d => dense l d
  | .conv1D c => conv1D l c
  | .conv2D c => conv2D l c
  | .maxPool1D p => pool1D l p .greatest
  | .avgPool1D p => pool1D l p .mean
  | .maxPool2D p => pool2D l p .greatest
  | .avgPool2D p => pool2D l p .mean
  | .batchNorm1D b | .batchNorm2D b => batchNorm l b
  | .activation .softmax => softmax l
  | .activation f => activation l f
  | .add f => add l f
  | .flatten => flatten l
  | .sum _ => sum l
  | .concatenate axis => concatenate l axis
  | .slice ranges => slices l ranges
  | .sampleNorm mode => sampleNorm l mode
  | .permute order => permute l order
  | .upsample _ => upsample l
  | kind => l.fault (.noImplementation l.name kind.name)

/-- The header of a layer: the type of its output. -/
def layerHeader (l : BoundLayer) : Code :=
  lines [s!"#ifndef {guard l.name}", s!"#define {guard l.name}", ""] ++
    includes ["number.h"] ++
    lines ["",
      s!"typedef {l.record.numberType.cName} {l.name}_output_type{extents l.outputShape};", "",
      s!"#endif // {guard l.name}"]

/-- The weights of a layer. -/
def layerWeights (l : BoundLayer) (arrays : List CArray) : Code :=
  line s!"/* {l.name} weights */" ++ blank ++ includes ["number.h"] ++
    lines (arrays.flatMap fun a => ["", a.definition])

/-- The code of a file. -/
def code (t : Template) (s : Scope) : Except Failure Code :=
  match t with
  | .layerHeader _ => do return layerHeader (← BoundLayer.bind t s)
  | .layerSource _ => do
    let l ← BoundLayer.bind t s
    return (← layerFile l).code l
  | .layerWeights _ => do return layerWeights (← BoundLayer.bind t s) s.weights
  | .defines => defines s
  | .numbers => .ok (numberHeader s.types)
  | .modelHeader => modelHeader t s
  | .model => model t s

/-- The rendering service of the compiler. -/
def engine : Engine := fun t s => do return render (← code t s)

end NeuralC.C
