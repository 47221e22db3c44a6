import NeuralC.Text.Blank

/-!
# NeuralC.Number

Number representations.  A layer computes either in floating point or in fixed
point on signed integers of some width, and accumulates in a wider type.  A
scale factor is an exponent of two: the fixed-point value `q` with scale
factor `s` stands for `q / 2 ^ s`.

* `NumberFormat` is what the user asks for, `QuantRecord` what one layer
  uses, `NumberType` what the generated code has to declare;
* `NumberTypes` is an ordered set of types: `NumberTypes.insert` keeps the
  order and adds a type at most once.
-/

namespace NeuralC

/-! ## Kinds and rounding -/

/-- The arithmetic of a layer. -/
inductive NumberKind where
  | integer
  | float
deriving DecidableEq, Repr

/-- Rounding applied when a value is rescaled; `unset` says that none was
configured. -/
inductive RoundMode where
  | unset
  | floor
  | nearest
deriving DecidableEq, Repr

namespace RoundMode

/-- The word for a round mode. -/
def name : RoundMode → String
  | unset => "none"
  | floor => "floor"
  | nearest => "nearest"

/-- Reads a round mode in any letter case, blanks around it ignored; failing
that, gives the text that was looked up. -/
def read (text : String) : Except String RoundMode :=
  let word := String.ofList ((Text.trim text.toList).map Char.toLower)
  if word = "none" then .ok unset
  else if word = "floor" then .ok floor
  else if word = "nearest" then .ok nearest
  else .error word

/-- What is said of a word that is no round mode. -/
def unknownMessage (word : String) : String :=
  s!"unknown round mode '{word}', expected none, floor or nearest"

end RoundMode

/-! ## Bounds and C types -/

/-- Least and greatest two's complement integer of `width` bits, where a width
counts as at least 1 and at most 64. -/
def signedBounds (width : Nat) : Int × Int :=
  let half : Int := Int.ofNat (Nat.pow 2 (max 1 (min width 64) - 1))
  (-half, half - 1)

/-- The C type of numbers of one kind and width. -/
def cType (kind : NumberKind) (width : Nat) : String :=
  match kind with
  | .integer => s!"int{width}_t"
  | .float => if 32 < width then "double" else "float"

/-- A number type the generated code must declare: values of `width` bits,
accumulated in `longWidth` bits. -/
structure NumberType where
  kind : NumberKind
  width : Nat
  longWidth : Nat
deriving DecidableEq, Repr

namespace NumberType

/-- The least value of the type's width. -/
def min (t : NumberType) : Int := (signedBounds t.width).1

/-- The greatest value of the type's width. -/
def max (t : NumberType) : Int := (signedBounds t.width).2

/-- The C type of values. -/
def cName (t : NumberType) : String := cType t.kind t.width

/-- The C type of accumulators. -/
def longCName (t : NumberType) : String := cType t.kind t.longWidth

/-- The rank of a kind in the order of types: integers come first. -/
def kindRank : NumberKind → Nat
  | .integer => 0
  | .float => 1

/-- The order of types: by kind, width and accumulator width. -/
def before (a b : NumberType) : Bool :=
  if kindRank a.kind ≠ kindRank b.kind then kindRank a.kind < kindRank b.kind
  else if a.width ≠ b.width then a.width < b.width
  else a.longWidth < b.longWidth

end NumberType

/-! ## Sets of number types -/

/-- A set of number types, kept as an increasing list. -/
structure NumberTypes where
  toList : List NumberType
deriving DecidableEq, Repr

namespace NumberTypes

/-- The 32-bit integers that the conversion helpers of the generated code rely
on; every set of types starts with them. -/
def runtimeType : NumberType := ⟨.integer, 32, 64⟩

/-- The types of a new compilation. -/
def initial : NumberTypes := ⟨[runtimeType]⟩

/-- Places a type in an increasing list, unless it is there already. -/
def place (t : NumberType) : List NumberType → List NumberType
  | [] => [t]
  | u :: us =>
    if t = u then u :: us
    else if t.before u then t :: u :: us
    else u :: place t us

/-- The set with one more type. -/
def insert (s : NumberTypes) (t : NumberType) : NumberTypes := ⟨place t s.toList⟩

/-- Whether a type is in the set. -/
def contains (s : NumberTypes) (t : NumberType) : Bool := decide (t ∈ s.toList)

theorem mem_place {t u : NumberType} {ts : List NumberType} :
    u ∈ place t ts ↔ u = t ∨ u ∈ ts := by
  induction ts with
  | nil => simp [place]
  | cons v vs ih =>
    simp only [place]
    split
    · next h => subst h; simp
    · split
      · simp
      · simp only [List.mem_cons, ih]
        exact or_left_comm

end NumberTypes

/-! ## Formats and records -/

/-- The number format requested for a whole model. -/
inductive NumberFormat where
  | float32
  | int16
  | int8
deriving DecidableEq, Repr

namespace NumberFormat

/-- The word for a format. -/
def name : NumberFormat → String
  | float32 => "float32"
  | int16 => "int16"
  | int8 => "int8"

/-- The arithmetic of a format. -/
def kind : NumberFormat → NumberKind
  | float32 => .float
  | int16 | int8 => .integer

/-- The bits of a value. -/
def width : NumberFormat → Nat
  | float32 => 32
  | int16 => 16
  | int8 => 8

/-- The bits of an accumulator. -/
def longWidth : NumberFormat → Nat
  | float32 => 32
  | int16 => 32
  | int8 => 16

/-- Reads the word for a format. -/
def read? (text : String) : Option NumberFormat :=
  if text = "float32" then some float32
  else if text = "int16" then some int16
  else if text = "int8" then some int8
  else none

/-- What is said of a text that names no format. -/
def unknownMessage (text : String) : String :=
  s!"only float32, int8 or int16 quantization is supported, got '{text}'"

end NumberFormat

/-- How the numbers of one layer are represented: its number type, the scale
factors of weights, bias and output, and the rounding of weights and output.
Scale factors and round modes may be absent. -/
structure QuantRecord where
  kind : NumberKind
  width : Nat
  longWidth : Nat
  weightsScale : Option Int
  biasScale : Option Int
  outputScale : Option Int
  weightsRound : Option RoundMode
  outputRound : Option RoundMode
deriving DecidableEq, Repr

namespace QuantRecord

/-- The record of a layer that computes in floating point. -/
def float (width longWidth : Nat) : QuantRecord where
  kind := .float
  width := width
  longWidth := longWidth
  weightsScale := some 0
  biasScale := none
  outputScale := some 0
  weightsRound := none
  outputRound := none

/-- Whether the layer computes in fixed point. -/
def isInteger (q : QuantRecord) : Bool := decide (q.kind = .integer)

/-- The number type of a layer. -/
def numberType (q : QuantRecord) : NumberType := ⟨q.kind, q.width, q.longWidth⟩

/-- The scale factor of the bias: its own, else that of the weights. -/
def effectiveBiasScale (q : QuantRecord) : Option Int := q.biasScale.or q.weightsScale

end QuantRecord

end NeuralC
