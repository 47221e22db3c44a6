import NeuralC.Bundle
import NeuralC.C.Template
import NeuralC.Work

/-!
# NeuralC.Emit

Generation of all files of a model with a rendering service: first the sizes
and the number types, then header, source and weights of every layer, last the
header and the source of the model.
-/

namespace NeuralC.Emit

open NeuralC.C

/-- Renders one file. -/
def renderFile (engine : Engine) (s : Scope) (path : String) (t : Template) : Work Artifact := do
  let contents ← Work.attempt (engine t s)
  let a : Artifact := ⟨path, contents⟩
  Work.count (·.recordArtifact a.size)
  return a

/-- Renders files one after another. -/
def renderFiles (engine : Engine) (s : Scope) : List (String × Template) → Work (List Artifact)
  | [] => pure []
  | (path, t) :: rest => do
    let a ← renderFile engine s path t
    return a :: (← renderFiles engine s rest)

/-- The files of a layer, for its family of templates. -/
def layerFiles (l : Layer) (family : String) : List (String × Template) :=
  [(s!"include/{l.name}.h", .layerHeader family), (s!"{l.name}.c", .layerSource family)] ++
    if l.hasWeights then [(s!"weights/{l.name}.c", .layerWeights family)] else []

/-- Renders the files of a layer; an input has none. -/
def emitLayer (engine : Engine) (s : Scope) (h : Handle) : Work (List Artifact) := do
  let n ← Work.attempt (s.graph.node h)
  match ← Work.check (family? n.layer) with
  | none => return []
  | some family =>
    let weights ← Work.attempt (weightArrays n.layer)
    let files ← renderFiles engine { s with layer := some h, weights := weights }
      (layerFiles n.layer family)
    Work.note .debug s!"Rendered layer {n.name} with template {family}"
    return files

/-- Renders the files of layers one after another. -/
def emitLayers (engine : Engine) (s : Scope) : List Handle → Work (List Artifact)
  | [] => pure []
  | h :: hs => do
    let files ← emitLayer engine s h
    return files ++ (← emitLayers engine s hs)

/-- The files in front of those of the layers. -/
def leadingFiles : List (String × Template) :=
  [("include/defines.h", .defines), ("include/number.h", .numbers)]

/-- The files behind those of the layers. -/
def trailingFiles : List (String × Template) :=
  [("include/model.h", .modelHeader), ("model.c", .model)]

/-- Renders all files of the model at work. -/
def emit (engine : Engine) (plan : Memory.Plan) : Work Bundle := do
  let w ← get
  let s : Scope := ⟨w.graph, plan, w.session.types, none, []⟩
  let leading ← renderFiles engine s leadingFiles
  let layers ← emitLayers engine s w.graph.order
  let trailing ← renderFiles engine s trailingFiles
  let b : Bundle := ⟨leading ++ layers ++ trailing⟩
  Work.note .info s!"Generated {b.size} source files"
  return b

end NeuralC.Emit
