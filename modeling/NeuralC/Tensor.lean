import NeuralC.Text.Bracketed

/-!
# NeuralC.Tensor

Parameter tensors: a shape and the elements in row-major order, stored as
single precision numbers or as signed integers of 8, 16 or 32 bits.  Nothing
forces the number of elements to be the product of the shape; readers that
need an element ask for it with `Tensor.get?`.
-/

namespace NeuralC

/-- Dimensions of an array, outermost first. -/
abbrev Shape := List Nat

/-- The number of elements of an array: the product of its dimensions. -/
def Shape.size (shape : Shape) : Nat := shape.foldr (· * ·) 1

/-- The elements of a tensor. -/
inductive TensorData where
  | f32 (values : List Float32)
  | i8 (values : List Int8)
  | i16 (values : List Int16)
  | i32 (values : List Int32)
deriving DecidableEq, Repr

/-- One element of a tensor, whatever its storage. -/
inductive Element where
  | float (value : Float32)
  | integer (value : Int)
deriving DecidableEq, Repr

/-- The element in double precision, which holds all of them exactly. -/
def Element.toFloat : Element → Float
  | float value => value.toFloat
  | integer value => Float.ofInt value

namespace TensorData

/-- The elements, whatever their storage. -/
def elements : TensorData → List Element
  | f32 values => values.map .float
  | i8 values => values.map fun v => .integer v.toInt
  | i16 values => values.map fun v => .integer v.toInt
  | i32 values => values.map fun v => .integer v.toInt

/-- The number of elements. -/
def length : TensorData → Nat
  | f32 values => values.length
  | i8 values => values.length
  | i16 values => values.length
  | i32 values => values.length

@[simp] theorem length_elements (d : TensorData) : d.elements.length = d.length := by
  cases d <;> simp [elements, length]

/-- The element at an index. -/
def get? (d : TensorData) (i : Nat) : Option Element :=
  match d with
  | f32 values => values[i]?.map .float
  | i8 values => values[i]?.map fun v => .integer v.toInt
  | i16 values => values[i]?.map fun v => .integer v.toInt
  | i32 values => values[i]?.map fun v => .integer v.toInt

/-- The short name of the storage. -/
def typeName : TensorData → String
  | f32 _ => "f32"
  | i8 _ => "i8"
  | i16 _ => "i16"
  | i32 _ => "i32"

/-- The bytes of one element. -/
def elementSize : TensorData → Nat
  | f32 _ | i32 _ => 4
  | i16 _ => 2
  | i8 _ => 1

end TensorData

/-- A tensor that holds parameters of a layer. -/
structure Tensor where
  shape : Shape
  data : TensorData
deriving DecidableEq, Repr

namespace Tensor

/-- Numbers as a tensor of one dimension. -/
def vector (values : List Float32) : Tensor := ⟨[values.length], .f32 values⟩

/-- The number of elements. -/
def length (t : Tensor) : Nat := t.data.length

/-- Whether there are no elements. -/
def isEmpty (t : Tensor) : Bool := t.length == 0

/-- Whether the elements are fixed-point values. -/
def isInteger (t : Tensor) : Bool :=
  match t.data with
  | .f32 _ => false
  | _ => true

/-- The elements of a tensor of single precision numbers. -/
def floats? (t : Tensor) : Option (List Float32) :=
  match t.data with
  | .f32 values => some values
  | _ => none

/-- The element at an index. -/
def get? (t : Tensor) (i : Nat) : Option Element := t.data.get? i

/-- Storage and shape as text. -/
def describe (t : Tensor) : String := t.data.typeName ++ Text.showNats t.shape

end Tensor

end NeuralC
