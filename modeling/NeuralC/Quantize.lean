import NeuralC.FixedPoint
import NeuralC.Work

/-!
# NeuralC.Quantize

Conversion of the weights of a model.  Every layer has to carry a record; its
number type is taken down for the generated code.  The weights of a layer in
fixed point are converted with the scale factor and rounding of its record, a
bias with its own scale factor where there is one.
-/

namespace NeuralC

/-- How the weights of a layer are converted. -/
structure WeightConversion where
  width : IntegerWidth
  scale : Int
  biasScale : Int
  round : RoundMode
deriving DecidableEq, Repr

namespace WeightConversion

/-- The conversion that a record describes. -/
def ofRecord (q : QuantRecord) : Except QuantizationCause WeightConversion :=
  match q.weightsScale with
  | none => .error .noWeightsScale
  | some scale =>
    match q.weightsRound with
    | none => .error .noWeightsRound
    | some round =>
      match IntegerWidth.ofBits q.width with
      | .error e => .error (.conversion e)
      | .ok width => .ok ⟨width, scale, q.biasScale.getD scale, round⟩

/-- The scale factor of a weight. -/
def scaleOf (c : WeightConversion) : Role → Int
  | .kernel => c.scale
  | .bias => c.biasScale

end WeightConversion

namespace Quantize

/-- Converts weights of one layer, one after another. -/
def convertWeights (h : Handle) (name : String) (c : WeightConversion) :
    List (Role × Tensor) → Work Unit
  | [] => pure ()
  | (role, t) :: rest =>
    match quantizeTensor c.width t (c.scaleOf role) c.round with
    | .error e => Work.report (.quantization name (.conversion e))
    | .ok t' => do
      Work.setGraph ((← Work.graph).modifyLayer h fun l =>
        { l with kind := l.kind.setWeight role t' })
      Work.count (·.recordQuantized t'.length)
      convertWeights h name c rest

/-- Takes down the number type of a layer and converts its weights. -/
def quantizeLayer (h : Handle) : Work Unit := do
  let n ← Work.node h
  match n.quant with
  | none => Work.report (.quantization n.name .noRecord)
  | some q =>
    Work.recordType q.numberType
    if q.isInteger ∧ n.layer.hasWeights then
      match WeightConversion.ofRecord q with
      | .error cause => Work.report (.quantization n.name cause)
      | .ok c =>
        let bias := Text.showOption (q.biasScale.map toString)
        Work.note .info s!"{n.name} quantization weights={c.scale} bias={bias}"
        convertWeights h n.name c n.layer.weights

/-- Converts layers one after another. -/
def quantizeAll : List Handle → Work Unit
  | [] => pure ()
  | h :: hs => do
    quantizeLayer h
    quantizeAll hs

/-- Converts all layers of the graph at work. -/
def quantize : Work Unit := do quantizeAll (← Work.graph).order

end Quantize

end NeuralC
