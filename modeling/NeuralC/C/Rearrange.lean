import NeuralC.C.Elementwise

/-!
# NeuralC.C.Rearrange

Code of the layers that move elements without computing on them: flattening,
concatenation, slices, permutations and upsampling.
-/

namespace NeuralC.C

/-- The same elements in one dimension.  Where the output overwrites the
input, nothing is left to do. -/
def flatten (l : BoundLayer) : Except Failure LayerFile := do
  let input ← l.inputShape 0
  let elements ← l.outputShape.countSample
  return {
    constants := [size "OUTPUT_SIZE" elements, typeConstant l]
    parameters := [.ofShape "input" input]
    body := flatPointers ++ lines ["size_t x;", ""] ++
      when "(const void *)i == (const void *)o" (line "return;") ++
      count "x" "OUTPUT_SIZE" (line "o[x] = i[x];") }

/-- The shape of an operand to concatenate along an axis, which has the rank of
the output, and the number of elements from the axis on. -/
def concatenated (l : BoundLayer) (axis i : Nat) : Except Failure (Shape × Nat) := do
  let shape ← l.inputShape i
  let rank := l.outputShape.length
  if shape.length = rank then return (shape, ← Shape.count (← slice shape axis shape.length))
  else l.fault (.concatenateRank l.name i shape.length rank)

/-- Operands side by side along an axis, which counts from the end when it is
negative. -/
def concatenate (l : BoundLayer) (axis : Int) : Except Failure LayerFile := do
  let rank := l.outputShape.length
  let axis := if axis < 0 then axis + rank else axis
  if axis < 1 ∨ (rank : Int) ≤ axis then l.fault (.concatenateAxis l.name axis rank)
  else
    let axis := axis.toNat
    let outer ← Shape.count (← slice l.outputShape 1 axis)
    let parts ← (List.range l.operands.length).mapM (concatenated l axis)
    return {
      constants := size "OUTER_SIZE" outer :: numberConstants l
      parameters := parts.zipIdx.map fun ((shape, _), i) => .ofShape s!"input_{i + 1}" shape
      body := operandPointers l ++
        lines ["size_t x, y, output_x = 0;", "LONG_NUMBER_T output_acc;", ""] ++
        count "x" "OUTER_SIZE" (parts.zipIdx.flatMap fun ((_, inner), i) =>
          braced s!"for (y = 0; y < {inner}; y++, output_x++)" (lines [
            s!"output_acc = i_{i + 1}[x * {inner} + y];",
            "o[output_x] = scale_and_clamp_to(NUMBER_T, output_acc, " ++
              s!"{l.inputScale i} - OUTPUT_SCALE_FACTOR, OUTPUT_ROUND_MODE);"])) }

/-- The dimensions of a shape by number, batch dimension left out. -/
def numbered (shape : Shape) : List (Nat × Nat) := (shape.zipIdx.map fun (n, d) => (d, n)).drop 1

/-- Subscripts, one per dimension of a list. -/
def subscripts (text : Nat → String) (ds : List Nat) : String := brackets (ds.map text)

/-- Counters of dimensions, declared where there are any. -/
def counters (names : List String) : Code :=
  if names.isEmpty then []
  else
    let all := ", ".intercalate names
    lines [s!"size_t {all};", ""]

/-- Every `step`-th element of each dimension. -/
def slices (l : BoundLayer) (ranges : List SliceRange) : Except Failure LayerFile := do
  let input ← l.inputShape 0
  let ds := (numbered input).map (·.1)
  let heads := (numbered input).map fun (d, n) =>
    let r := ranges.getD d ⟨0, n, 1⟩
    s!"for (i_{d} = {r.start}, o_{d} = 0; i_{d} < {min r.stop n}; " ++
      s!"i_{d} += {max r.step 1}, o_{d}++)"
  let target := subscripts (fun d => s!"o_{d}") ds
  let element := subscripts (fun d => s!"i_{d}") ds
  return {
    constants := [typeConstant l]
    parameters := [.ofShape "input" input]
    body := counters (ds.map fun d => s!"i_{d}, o_{d}") ++
      nest heads (line s!"output{target} = input{element};") }

/-- The dimensions in another order, the batch dimension staying first. -/
def permute (l : BoundLayer) (order : List Nat) : Except Failure LayerFile := do
  let input ← l.inputShape 0
  if order.length ≠ input.length ∨ order.head? ≠ some 0 then
    l.fault (.permutation l.name order input)
  else
    let ds := (numbered input).map (·.1)
    let heads := (numbered input).map fun (d, n) => s!"for (i_{d} = 0; i_{d} < {n}; i_{d}++)"
    let target := subscripts (fun d => s!"i_{d}") (order.drop 1)
    let element := subscripts (fun d => s!"i_{d}") ds
    return {
      constants := [typeConstant l]
      parameters := [.ofShape "input" input]
      body := counters (ds.map fun d => s!"i_{d}") ++
        nest heads (line s!"output{target} = input{element};") }

/-- How often an input element is repeated along a dimension. -/
def repeats (input output : Shape) (d : Nat) : Except Failure Nat := do
  return max ((← dimension output d) / max (← dimension input d) 1) 1

/-- The subscript of the input in a dimension of the output.  Only the spatial
dimensions repeat elements. -/
def upsampled (input output : Shape) (d : Nat) : Except Failure String := do
  if d ≤ input.length - 2 then
    let times ← repeats input output d
    return s!"o_{d} / {times}"
  else return s!"o_{d}"

/-- Elements repeated along the spatial dimensions. -/
def upsample (l : BoundLayer) : Except Failure LayerFile := do
  let input ← l.inputShape 0
  let output := l.outputShape
  if (input.length ≠ 3 ∧ input.length ≠ 4) ∨ input.length ≠ output.length then
    l.fault (.upsample l.name input output)
  else
    let ds := (numbered output).map (·.1)
    let heads := (numbered output).map fun (d, n) => s!"for (o_{d} = 0; o_{d} < {n}; o_{d}++)"
    let target := subscripts (fun d => s!"o_{d}") ds
    let element := brackets (← ds.mapM (upsampled input output))
    return {
      constants := [typeConstant l]
      parameters := [.ofShape "input" input]
      body := counters (ds.map fun d => s!"o_{d}") ++
        nest heads (line s!"output{target} = input{element};") }

end NeuralC.C
