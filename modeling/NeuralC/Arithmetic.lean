import NeuralC.Diagnostic
import NeuralC.Tensor

/-!
# NeuralC.Arithmetic

The operations that evaluating a layer needs of its numbers.  Layers are
written over an `Arithmetic`, so that they can be run in single precision and
read in exact numbers.
-/

namespace NeuralC

/-- Numbers that layers can be evaluated in. -/
structure Arithmetic (α : Type) where
  zero : α
  /-- The number that adds nothing, from which sums start. -/
  neutral : α
  add : α → α → α
  sub : α → α → α
  mul : α → α → α
  div : α → α → α
  exp : α → α
  /-- A whole number. -/
  ofNat : Nat → α
  /-- An element of a tensor. -/
  ofElement : Element → α
  /-- The number, but zero where it is negative. -/
  relu : α → α
  /-- The number, but zero where it is negative and six where it is above. -/
  relu6 : α → α
  /-- The greatest number of a list. -/
  maximum : List α → α

namespace Arithmetic

variable {α : Type}

/-- A number and a list after it, added up from the front. -/
def sumFrom (a : Arithmetic α) (start : α) (xs : List α) : α := xs.foldl a.add start

/-- The sum of a list. -/
def sum (a : Arithmetic α) (xs : List α) : α := a.sumFrom a.neutral xs

/-- The element of a tensor at an index. -/
def weight (a : Arithmetic α) (t : Tensor) (i : Nat) : Except Failure α :=
  match t.get? i with
  | some e => .ok (a.ofElement e)
  | none => .error .outOfRange

end Arithmetic

/-! ## Single precision -/

/-- The greater of two numbers; a value that is no number gives way to the
other. -/
def greaterFloat (x y : Float32) : Float32 :=
  if x.isNaN then y else if y.isNaN then x else if x < y then y else x

/-- The number where it is above zero, else zero. -/
def aboveZero (x : Float32) : Float32 := if 0.0 < x then x else 0.0

/-- The number kept between zero and six; a value that is no number stays. -/
def clampSix (x : Float32) : Float32 := if x < 0.0 then 0.0 else if 6.0 < x then 6.0 else x

/-- Single precision.  Only the negative zero adds nothing to every number, to
itself included; the greatest number of the empty list is the negative
infinity. -/
def singlePrecision : Arithmetic Float32 where
  zero := 0.0
  neutral := -0.0
  add x y := x + y
  sub x y := x - y
  mul x y := x * y
  div x y := x / y
  exp := Float32.exp
  ofNat := Float32.ofNat
  ofElement e := e.toFloat.toFloat32
  relu := aboveZero
  relu6 := clampSix
  maximum := List.foldl greaterFloat (Float32.ofBits 0xFF800000)

end NeuralC
