import NeuralC.C.Code
import NeuralC.C.HexFloat
import NeuralC.Size

/-!
# NeuralC.C.Array

Weights as constant C arrays.  The initializer of an array has one level of
braces per dimension; numbers are written so that they read back exactly.  The
number of elements of a row is computed before the rows are cut, also where there
is no row.
-/

namespace NeuralC.C

/-! ## Initializers -/

/-- An element as a literal. -/
def literal : Element → String
  | .float value => hexFloat value
  | .integer value => toString value

/-- The part of a list from one place up to another, both within the list. -/
def slice {α : Type} (xs : List α) (start stop : Nat) : Except Failure (List α) :=
  if start ≤ stop ∧ stop ≤ xs.length then .ok ((xs.take stop).drop start)
  else .error .outOfRange

/-- Items between commas, one to a line behind an indentation. -/
def stacked (indentation : String) : List String → String
  | [] => ""
  | [item] => indentation ++ item ++ "\n"
  | item :: items => indentation ++ item ++ ",\n" ++ stacked indentation items

/-- Literals in row-major order between nested braces. -/
def initializer (depth : Nat) : Shape → List String → Except Failure String
  | [], literals => .ok (literals.head?.getD "0")
  | [_], literals => .ok ("\x7b" ++ ", ".intercalate literals ++ "\x7d")
  | outer :: next :: inner, literals => do
    let stride ← Shape.count (next :: inner)
    let items ← (List.range outer).mapM fun i => do
      initializer (depth + 1) (next :: inner) (← slice literals (i * stride) ((i + 1) * stride))
    let margin (n : Nat) := String.join (List.replicate n "  ")
    return "\x7b\n" ++ stacked (margin (depth + 1)) items ++ margin depth ++ "\x7d"

/-! ## Arrays -/

/-- The C type of the elements of a tensor. -/
def elementType : TensorData → String
  | .f32 _ => cType .float 32
  | .i8 _ => cType .integer 8
  | .i16 _ => cType .integer 16
  | .i32 _ => cType .integer 32

/-- A constant array. -/
structure CArray where
  name : String
  type : String
  shape : Shape
  initializer : String
deriving DecidableEq, Repr

namespace CArray

/-- The name of the array of a weight. -/
def nameOf (layer : String) (role : Role) : String := s!"{layer}_{role.name}"

/-- The array of a weight of a layer. -/
def ofTensor (layer : String) (role : Role) (t : Tensor) : Except Failure CArray := do
  let text ← C.initializer 0 t.shape (t.data.elements.map literal)
  return ⟨nameOf layer role, elementType t.data, t.shape, text⟩

/-- The extents of the array, each in brackets. -/
def extents (a : CArray) : String := brackets (a.shape.map toString)

/-- The definition of the array. -/
def definition (a : CArray) : String :=
  s!"const {a.type} {a.name}{a.extents} = {a.initializer};"

end CArray

/-- The arrays of the weights of a layer. -/
def weightArrays (l : Layer) : Except Failure (List CArray) :=
  l.weights.mapM fun (role, t) => CArray.ofTensor l.name role t

end NeuralC.C
