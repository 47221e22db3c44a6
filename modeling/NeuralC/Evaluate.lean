import NeuralC.Arithmetic
import NeuralC.Graph.Basic

/-!
# NeuralC.Evaluate

The function that a graph computes.  One sample runs through the layers in
order; each output is a flat list with the channels innermost.  A kind of
layer that simplification neither changes nor usually meets is reported as not
evaluated, and an index beyond a list is out of range.  Places and lengths are
exact numbers here: the sizes of an evaluation have no limit.
-/

namespace NeuralC.Evaluate

variable {α : Type}

/-- A report about a layer that cannot be evaluated. -/
def refuse {β : Type} (l : Layer) (cause : StructuralCause) : Except Failure β :=
  .error (.reported (.editing l.name cause))

/-- The element of a list that should have it. -/
def element (xs : List α) (i : Nat) : Except Failure α := present xs[i]?

/-! ## Activations -/

/-- The list in rows of `size` elements, at least one each; the last row may
be shorter. -/
def rows (size : Nat) : List α → List (List α)
  | [] => []
  | x :: xs => (x :: xs.take (size - 1)) :: rows size (xs.drop (size - 1))
termination_by xs => xs.length
decreasing_by simp only [List.length_drop, List.length_cons]; omega

/-- Softmax of one row: exponentials relative to the greatest element, divided
by their sum. -/
def softmaxRow (a : Arithmetic α) (xs : List α) : List α :=
  let top := a.maximum xs
  let powers := xs.map fun x => a.exp (a.sub x top)
  let total := a.sum powers
  powers.map fun p => a.div p total

/-- Softmax of every row. -/
def softmax (a : Arithmetic α) (channels : Nat) (xs : List α) : List α :=
  (rows channels xs).flatMap (softmaxRow a)

/-- The channels of a layer's output. -/
def channels (l : Layer) : Nat := max (l.outputShape.getLast?.getD 1) 1

/-- Applies an activation to the output of a layer. -/
def activate (a : Arithmetic α) (l : Layer) (f : Activation) (xs : List α) :
    Except Failure (List α) :=
  match f with
  | .linear => .ok xs
  | .relu => .ok (xs.map a.relu)
  | .relu6 => .ok (xs.map a.relu6)
  | .softmax => .ok (softmax a (channels l) xs)
  | .fire => refuse l (.activationNotEvaluated .fire)

/-! ## Layers with a window -/

/-- Samples and channels of a shape of three dimensions. -/
def samplesChannels (l : Layer) (shape : Shape) : Except Failure (Nat × Nat) :=
  match shape with
  | [_, samples, channels] => .ok (samples, channels)
  | shape => refuse l (.notRankThree shape)

/-- Products of weights and inputs, each pair given by its indices. -/
def products (a : Arithmetic α) (kernel : Tensor) (xs : List α) (terms : List (Nat × Nat)) :
    Except Failure (List α) :=
  terms.mapM fun (w, i) => do return a.mul (← a.weight kernel w) (← element xs i)

/-- A sum plus the bias of a channel, where there is one. -/
def withBias (a : Arithmetic α) (bias : Option Tensor) (k : Nat) (x : α) : Except Failure α :=
  match bias with
  | none => .ok x
  | some b => do return a.add x (← a.weight b k)

/-- A fully connected layer. -/
def dense (a : Arithmetic α) (l : Layer) (d : Dense) (xs : List α) : Except Failure (List α) := do
  let n := xs.length
  let out ← (List.range d.units).mapM fun k => do
    let terms := (List.range n).map fun z => (k * n + z, z)
    withBias a d.bias k (a.sum (← products a d.kernel xs terms))
  activate a l d.activation out

/-- The sizes of a convolution over one dimension. -/
structure Window where
  samples : Nat
  channels : Nat
  size : Nat
  stride : Nat
  left : Nat
  perGroup : Nat
  filtersPerGroup : Nat
deriving DecidableEq, Repr

namespace Window

/-- The window of a convolution. -/
def of (c : Convolution) (samples channels filters : Nat) : Window where
  samples := samples
  channels := channels
  size := c.kernelSize.head?.getD 1
  stride := c.strides.head?.getD 1
  left := (c.padding.head?.getD (0, 0)).1
  perGroup := channels / max c.groups 1
  filtersPerGroup := max (filters / max c.groups 1) 1

/-- The sample under an element of the kernel, unless that lies in the
padding. -/
def sample? (w : Window) (place x : Nat) : Option Nat :=
  let i := place * w.stride + x
  if w.left ≤ i ∧ i - w.left < w.samples then some (i - w.left) else none

/-- The indices of weights and inputs that a filter joins at a place. -/
def terms (w : Window) (place k : Nat) : List (Nat × Nat) :=
  (List.range w.size).flatMap fun x =>
    match w.sample? place x with
    | none => []
    | some s => (List.range w.perGroup).map fun z =>
      ((k * w.size + x) * w.perGroup + z,
        s * w.channels + (z + k / w.filtersPerGroup * w.perGroup))

end Window

/-- A convolution over one dimension.  Every sum starts from zero, which is what
a filter that meets only padding gives. -/
def convolution (a : Arithmetic α) (l : Layer) (c : Convolution) (xs : List α) :
    Except Failure (List α) := do
  let (samples, channels) ← samplesChannels l l.inputShape
  let (places, filters) ← samplesChannels l l.outputShape
  let w := Window.of c samples channels filters
  let out ← (List.range places).mapM fun place =>
    (List.range filters).mapM fun k => do
      withBias a c.bias k (a.sumFrom a.zero (← products a c.kernel xs (w.terms place k)))
  activate a l c.activation out.flatten

/-- The inputs of one channel under a pooling window. -/
def poolWindow (xs : List α) (channels stride size place k : Nat) : Except Failure (List α) :=
  (List.range size).mapM fun x => element xs ((place * stride + x) * channels + k)

/-- A pooling layer over one dimension, for some reduction of a window. -/
def pooling (a : Arithmetic α) (l : Layer) (p : Pooling) (reduce : Nat → List α → α)
    (xs : List α) : Except Failure (List α) := do
  let (_, channels) ← samplesChannels l l.inputShape
  let (places, _) ← samplesChannels l l.outputShape
  let size := p.size.head?.getD 1
  let stride := p.strides.head?.getD 1
  let out ← (List.range places).mapM fun place =>
    (List.range channels).mapM fun k => do
      return reduce size (← poolWindow xs channels stride size place k)
  activate a l p.activation out.flatten

/-- Zeros before and after the samples. -/
def zeroPadding (a : Arithmetic α) (l : Layer) (padding : List (Nat × Nat)) (xs : List α) :
    Except Failure (List α) := do
  let (samples, channels) ← samplesChannels l l.inputShape
  let (left, right) := padding.head?.getD (0, 0)
  if xs.length < samples * channels then throw .outOfRange
  return List.replicate (left * channels) a.zero ++ xs.take (samples * channels) ++
    List.replicate (right * channels) a.zero

/-! ## Other layers -/

/-- One factor and one offset per channel. -/
def batchNorm (a : Arithmetic α) (l : Layer) (b : BatchNorm) (xs : List α) :
    Except Failure (List α) := do
  let channels := max b.kernel.length 1
  let out ← xs.zipIdx.mapM fun (x, i) => do
    return a.add (a.mul x (← a.weight b.kernel (i % channels))) (← a.weight b.bias (i % channels))
  activate a l b.activation out

/-- Adds an operand to sums, element by element; where it is shorter, the
rest stays. -/
def addOperand (a : Arithmetic α) : List α → List α → List α
  | s :: sums, x :: xs => a.add s x :: addOperand a sums xs
  | sums, _ => sums

/-- The sum of operands. -/
def addition (a : Arithmetic α) (l : Layer) (f : Activation) (operands : List (List α)) :
    Except Failure (List α) :=
  activate a l f (operands.foldl (addOperand a) (List.replicate l.outputElements a.zero))

/-! ## Graphs -/

/-- The output of a layer from its operands, where `sample` is the input of
the graph. -/
def layer (a : Arithmetic α) (sample : List α) (l : Layer) (operands : List (List α)) :
    Except Failure (List α) :=
  let x := operands.head?.getD []
  match l.kind with
  | .input =>
    if sample.length = l.outputElements then .ok sample
    else refuse l (.sampleLength l.outputElements sample.length)
  | .dense d => dense a l d x
  | .conv1D c => convolution a l c x
  | .maxPool1D p => pooling a l p (fun _ => a.maximum) x
  | .avgPool1D p => pooling a l p (fun size xs => a.div (a.sum xs) (a.ofNat size)) x
  | .batchNorm1D b | .batchNorm2D b => batchNorm a l b x
  | .zeroPadding1D padding => zeroPadding a l padding x
  | .activation f => activate a l f x
  | .add f => addition a l f operands
  | .flatten | .identity | .dropout _ => .ok x
  | kind => refuse l (.notEvaluated kind.name)

/-- The outputs known so far; empty for a node that has not been reached. -/
abbrev Outputs (α : Type) := Handle → List α

/-- The outputs with one more. -/
def Outputs.set (outputs : Outputs α) (h : Handle) (xs : List α) : Outputs α :=
  fun k => if k = h then xs else outputs k

/-- Evaluates nodes one after another. -/
def run (a : Arithmetic α) (g : Graph) (sample : List α) :
    List Handle → Outputs α → Except Failure (Outputs α)
  | [], outputs => .ok outputs
  | h :: hs, outputs =>
    match g.node h with
    | .error f => .error f
    | .ok n =>
      match layer a sample n.layer (n.preds.map outputs) with
      | .error f => .error f
      | .ok xs => run a g sample hs (outputs.set h xs)

/-- The output of the last layer for one sample. -/
def evaluate (a : Arithmetic α) (g : Graph) (sample : List α) : Except Failure (List α) :=
  match run a g sample g.order fun _ => [] with
  | .error f => .error f
  | .ok outputs =>
    match g.output? with
    | none => .error (.reported (.editing "" .nothingToEvaluate))
    | some h => .ok (outputs h)

end NeuralC.Evaluate
