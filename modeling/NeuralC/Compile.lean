import NeuralC.C.Render
import NeuralC.Calibration.Annotate
import NeuralC.Emit
import NeuralC.Graph.Verify
import NeuralC.Model.Parse
import NeuralC.Quantize
import NeuralC.Simplify
import NeuralC.Validate

/-!
# NeuralC.Compile

A whole compilation, from a graph of layers to its generated files.  The stages
run in a fixed order and the first failure ends the run: verification,
annotation, simplification, validation, conversion of weights, memory planning and
generation.
-/

namespace NeuralC

/-! ## Reading -/

/-- Puts the graph of a model description in place. -/
def readModel (text : String) : Work Unit := do
  let g ← Work.attempt (Model.parse text)
  Work.note .debug s!"Parsed model with {g.size} layers"
  Work.setGraph g

/-- Reads calibration data for a model whose input has the given name. -/
def readCalibration (text input : String) : Work Calibration.Table := do
  let t ← Work.check (Calibration.parse text input)
  Work.note .debug s!"Loaded calibration data for {t.size} layers"
  return t

/-! ## Compiling -/

/-- The result of a compilation. -/
structure Compilation where
  bundle : Bundle
  plan : Memory.Plan
  types : NumberTypes
deriving DecidableEq, Repr

/-- A step with its reports attributed to a stage. -/
def Work.inStage {α : Type} (stage : Stage) (m : Work α) : Work α := fun w =>
  match m w with
  | .ok a w => .ok a w
  | .error f w => .error (f.inStage stage) w

/-- Compiles the graph at work. -/
def compileWith (engine : C.Engine) (format : NumberFormat) (table : Option Calibration.Table) :
    Work Compilation := do
  let layers := (← Work.graph).size
  Work.note .info s!"Compiling {layers} layers in {format.name} mode"
  Work.inStage .importing (do Work.check (← Work.graph).verify)
  Calibration.annotate table format
  Simplify.optimize
  let remaining := (← Work.graph).size
  Work.note .info s!"Optimized graph has {remaining} layers"
  Validate.validate
  Quantize.quantize
  let plan ← Memory.allocate
  Work.note .debug s!"Allocation plan:\n{plan.render}"
  let types := (← get).session.types
  let bundle ← Work.inStage .emitting (Emit.emit engine plan)
  let stats := (← get).session.stats
  Work.note .info s!"Compilation finished\n{stats.render}"
  return ⟨bundle, plan, types⟩

/-- Compiles the graph at work with the rendering service of this compiler. -/
def compile (format : NumberFormat) (table : Option Calibration.Table) : Work Compilation :=
  compileWith C.engine format table

end NeuralC
