import NeuralC.Graph.Basic

/-!
# NeuralC.Memory.Liveness

How long the output of each layer is needed, in places of the order: from the
layer itself to the last of its readers.
-/

namespace NeuralC.Memory

/-- The places from which and up to which an output is kept. -/
structure LiveRange where
  created : Nat
  keepUntil : Nat
deriving DecidableEq, Repr

/-- Whether two outputs are kept at some common place. -/
def LiveRange.overlaps (a b : LiveRange) : Bool :=
  a.created ≤ b.keepUntil && b.created ≤ a.keepUntil

/-- The range of the output of the node at a place. -/
def rangeOf (g : Graph) (n : Node) (place : Nat) : LiveRange :=
  ⟨place, (n.succs.filterMap g.position?).max?.getD place⟩

/-- The ranges of all outputs, by place. -/
def liveness (g : Graph) : Except Failure (List LiveRange) :=
  g.order.zipIdx.mapM fun (h, place) => do return rangeOf g (← g.node h) place

end NeuralC.Memory
