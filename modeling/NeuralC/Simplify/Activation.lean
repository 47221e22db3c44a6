import NeuralC.Simplify.Remove

/-!
# NeuralC.Simplify.Activation

Folding of clipping activations into the layer that feeds them.  An activation
with one producer that feeds nothing else is composed with the producer's own
and deleted; the producer takes over its output scale factor and, where given,
its output rounding.  A producer with other readers keeps its activation, for
they read it without the clipping.
-/

namespace NeuralC.Simplify

/-- Whether a layer only clips. -/
def isClipping : LayerKind → Bool
  | .activation .relu | .activation .relu6 => true
  | _ => false

/-- The record of a producer that writes what an activation with the record
`q` wrote. -/
def outputLike (q : QuantRecord) (r : QuantRecord) : QuantRecord :=
  { r with outputScale := q.outputScale, outputRound := q.outputRound.or r.outputRound }

/-- The producer with a composed activation and, where both have records, the
output of the activation's record. -/
def activated (a : Activation) (q : Option QuantRecord) (n : Node) : Node :=
  { n with
    layer := { n.layer with kind := n.layer.kind.setFusableActivation a }
    quant := match q, n.quant with
      | some q, some r => some (outputLike q r)
      | _, r => r }

/-- Folds one activation into its producer, unless that has other readers.
The value is the number of layers folded. -/
def fuseActivationAt (h : Handle) : Work Nat := do
  let g ← Work.graph
  let n ← Work.attempt (g.node h)
  match n.layer.kind, n.preds with
  | .activation a, [p] =>
    let producer ← Work.attempt (g.node p)
    if 1 < producer.succs.length then
      Work.note .debug
        s!"Keeping '{n.name}' standalone: '{producer.name}' has other consumers"
      return 0
    match producer.layer.kind.fusableActivation? with
    | none => Work.report (.editing producer.name (.noActivationField n.name))
    | some field =>
      match field.compose a with
      | none => Work.report (.editing producer.name (.cannotCompose n.name field))
      | some composed =>
        Work.setGraph (g.modify p (activated composed n.quant))
        Work.delete h
        Work.count (·.recordFused)
        Work.note .debug s!"Fused '{n.name}' into '{producer.name}' ({composed.name})"
        return 1
  | .activation _, preds => Work.report (.editing n.name (.activationArity preds.length))
  | _, _ => Work.report (.editing n.name .notActivation)

/-- Folds activations one after another; the value is the number folded. -/
def fuseActivationAll : List Handle → Work Nat
  | [] => return 0
  | h :: hs => do
    let one ← fuseActivationAt h
    let rest ← fuseActivationAll hs
    return one + rest

/-- Folds every clipping activation that can be folded. -/
def fuseActivation : Work Nat := do
  fuseActivationAll (← Work.handlesWhere isClipping)

end NeuralC.Simplify
