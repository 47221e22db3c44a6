import NeuralC.Edit

/-!
# NeuralC.Simplify.Remove

Removal of the layers that pass their input on unchanged: identities, and
dropouts, which do nothing once a model is trained.
-/

namespace NeuralC.Simplify

/-- Deletes nodes one after another, counting each. -/
def removeAll : List Handle → Work Unit
  | [] => pure ()
  | h :: hs => do
    Work.delete h
    Work.count (·.recordRemoved)
    removeAll hs

/-- Whether a layer is an identity. -/
def isIdentity : LayerKind → Bool
  | .identity => true
  | _ => false

/-- Whether a layer is a dropout. -/
def isDropout : LayerKind → Bool
  | .dropout _ => true
  | _ => false

/-- Deletes the layers of some kinds; the value is their number. -/
def removeWhere (p : LayerKind → Bool) : Work Nat := do
  let targets ← Work.handlesWhere p
  removeAll targets
  return targets.length

/-- Deletes every identity. -/
def removeIdentity : Work Nat := removeWhere isIdentity

/-- Deletes every dropout. -/
def removeDropout : Work Nat := removeWhere isDropout

end NeuralC.Simplify
