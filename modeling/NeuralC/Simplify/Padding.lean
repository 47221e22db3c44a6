import NeuralC.Simplify.Remove

/-!
# NeuralC.Simplify.Padding

Folding of padding layers into the convolutions that read them.  Every reader
has to be a convolution over as many dimensions; it takes over the padding and
reads what the padding layer read.
-/

namespace NeuralC.Simplify

/-- Whether a layer only pads. -/
def isPadding (kind : LayerKind) : Bool := kind.zeroPadding?.isSome

/-- The layer that pads by itself, reading inputs of the given shapes. -/
def padded (padding : List (Nat × Nat)) (shapes : List Shape) (l : Layer) : Layer :=
  { l with kind := l.kind.setPadding padding, inputShapes := shapes }

/-- Hands padding over to one reader. -/
def absorbPadding (rank : Nat) (padding : List (Nat × Nat)) (shapes : List Shape) (h : Handle) :
    Work Unit := do
  let g ← Work.graph
  let reader ← Work.attempt (g.node h)
  if reader.layer.kind.padding?.any (·.1 == rank) then
    Work.setGraph (g.modifyLayer h (padded padding shapes))
    Work.note .trace s!"Padding {Text.showPairs padding} folded into '{reader.name}'"
  else
    Work.report (.editing reader.name (.cannotAbsorb reader.layer.kind.name rank))

/-- Hands padding over to readers one after another. -/
def absorbAll (rank : Nat) (padding : List (Nat × Nat)) (shapes : List Shape) :
    List Handle → Work Unit
  | [] => pure ()
  | h :: hs => do
    absorbPadding rank padding shapes h
    absorbAll rank padding shapes hs

/-- Folds one padding layer into its readers. -/
def fusePaddingAt (h : Handle) : Work Unit := do
  let n ← Work.node h
  match n.layer.kind.zeroPadding? with
  | none => Work.report (.editing n.name .notPadding)
  | some (rank, padding) =>
    absorbAll rank padding n.layer.inputShapes n.succs
    Work.delete h
    Work.count (·.recordFused)

/-- Folds padding layers one after another. -/
def fusePaddingAll : List Handle → Work Unit
  | [] => pure ()
  | h :: hs => do
    fusePaddingAt h
    fusePaddingAll hs

/-- Folds every padding layer; the value is their number. -/
def fusePadding : Work Nat := do
  let targets ← Work.handlesWhere isPadding
  fusePaddingAll targets
  return targets.length

end NeuralC.Simplify
