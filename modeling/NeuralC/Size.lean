import NeuralC.Diagnostic
import NeuralC.Tensor

/-!
# NeuralC.Size

Sizes as they are computed.  Numbers of elements and of bytes have to stay below
`sizeLimit`, and a computation that leaves this range stops with an overflow.  A
product is taken from the left, one dimension after another, so a dimension of 0
does not help behind dimensions whose product is too large.

`Shape.size` is the exact number of elements.  `Shape.count` is how it is found
wherever a model is read, checked, planned or written.  Only the evaluation of a
sample, which works on lists that are there, has exact indices.
-/

namespace NeuralC

/-- Sizes are below this number. -/
def sizeLimit : Nat := Nat.pow 2 64

/-- A computed size, which has to be below the limit. -/
def bounded (n : Nat) : Except Failure Nat :=
  if n < sizeLimit then .ok n else .error .overflow

/-- Counts the elements of an array. -/
def Shape.count (shape : Shape) : Except Failure Nat := shape.foldlM (fun n d => bounded (n * d)) 1

/-- Counts the elements of one sample: the batch dimension is left out. -/
def Shape.countSample (shape : Shape) : Except Failure Nat := Shape.count (shape.drop 1)

end NeuralC
