import NeuralC.Diagnostic
import NeuralC.Tensor

/-!
# NeuralC.FixedPoint

Conversion of numbers to fixed point: a value is scaled by a power of two,
rounded, and clamped to the integers of some width.  The conversion is written
over an arithmetic, so that it can be run in double precision and read in exact
numbers.
-/

namespace NeuralC

/-! ## Widths -/

/-- The widths that weights can be converted to. -/
inductive IntegerWidth where
  | w8
  | w16
  | w32
deriving DecidableEq, Repr

namespace IntegerWidth

/-- The number of bits. -/
def bits : IntegerWidth → Nat
  | w8 => 8
  | w16 => 16
  | w32 => 32

/-- The width of a number of bits. -/
def ofBits (bits : Nat) : Except ConversionCause IntegerWidth :=
  if bits = 8 then .ok w8
  else if bits = 16 then .ok w16
  else if bits = 32 then .ok w32
  else .error (.unsupportedWidth bits)

/-- The least integer of a width. -/
def least (w : IntegerWidth) : Int := (signedBounds w.bits).1

/-- The greatest integer of a width. -/
def greatest (w : IntegerWidth) : Int := (signedBounds w.bits).2

/-- Integers stored in a width; those of its range are kept. -/
def store : IntegerWidth → List Int → TensorData
  | w8, is => .i8 (is.map Int8.ofInt)
  | w16, is => .i16 (is.map Int16.ofInt)
  | w32, is => .i32 (is.map Int32.ofInt)

end IntegerWidth

/-! ## Values -/

/-- What a conversion needs of its numbers. -/
structure Rescaling (α : Type) where
  /-- A number times a power of two. -/
  scale : α → Int → α
  /-- The number plus one half. -/
  addHalf : α → α
  /-- The integral number below. -/
  floor : α → α
  /-- An integral number as an integer between two bounds. -/
  clamp : Int → Int → α → Int

/-- Converts one value to an integer of some width. -/
def quantizeValue {α : Type} (r : Rescaling α) (w : IntegerWidth) (v : α) (scale : Int)
    (mode : RoundMode) : Except ConversionCause Int :=
  let scaled := r.scale v scale
  match mode with
  | .floor => .ok (r.clamp w.least w.greatest (r.floor scaled))
  | .nearest => .ok (r.clamp w.least w.greatest (r.floor (r.addHalf scaled)))
  | .unset => .error (.unsupportedRoundMode .unset)

/-! ## Double precision -/

/-- The power of two in double precision.  From an exponent of 1024 on it is
infinite, and its reciprocal zero. -/
def twoPow (exponent : Int) : Float :=
  let magnitude := exponent.natAbs
  let power := if magnitude < 1024 then Float.ofBits (UInt64.ofNat ((1023 + magnitude) <<< 52))
    else Float.ofBits 0x7FF0000000000000
  if exponent < 0 then 1.0 / power else power

/-- A whole double between two bounds; a value that is no number counts as
zero. -/
def clampFloat (lo hi : Int) (x : Float) : Int :=
  if x.isNaN then 0
  else if x < Float.ofInt lo then lo
  else if Float.ofInt hi < x then hi
  else x.toModel.toInt64.toInt

/-- The arithmetic of double precision. -/
def doubleRescaling : Rescaling Float where
  scale v s := v * twoPow s
  addHalf v := v + 0.5
  floor := Float.floor
  clamp := clampFloat

/-! ## Tensors -/

/-- Converts the numbers of a list. -/
def quantizeAll (w : IntegerWidth) (scale : Int) (mode : RoundMode) :
    List Float32 → Except ConversionCause (List Int)
  | [] => .ok []
  | x :: xs =>
    match quantizeValue doubleRescaling w x.toFloat scale mode with
    | .error e => .error e
    | .ok i =>
      match quantizeAll w scale mode xs with
      | .error e => .error e
      | .ok is => .ok (i :: is)

/-- Converts a tensor; one of integers stays as it is. -/
def quantizeTensor (w : IntegerWidth) (t : Tensor) (scale : Int) (mode : RoundMode) :
    Except ConversionCause Tensor :=
  match t.data with
  | .f32 values =>
    match quantizeAll w scale mode values with
    | .error e => .error e
    | .ok is => .ok { t with data := w.store is }
  | _ => .ok t

end NeuralC
