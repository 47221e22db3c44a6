import NeuralC.Text.Numeral

/-!
# NeuralC.Text.Decimal

Single precision numbers in decimal text.  A number is a sign, digits with an
optional point among them (at least one digit in all) and an optional
exponent; the words `inf`, `infinity` and `nan` are read in any letter case.
The value of a decimal is the nearest single precision number, ties to even.
-/

namespace NeuralC.Text

/-- The unsigned decimal `digits * 10 ^ exponent`. -/
structure Decimal where
  digits : Nat
  exponent : Int
deriving DecidableEq, Repr

/-- The exponent part of a decimal: nothing, or `e` with a signed numeral. -/
def exponent? : List Char → Option Int
  | [] => some 0
  | c :: cs =>
    if c = 'e' ∨ c = 'E' then
      match cs with
      | '+' :: rest => (digits? rest).map Int.ofNat
      | '-' :: rest => (digits? rest).map fun n => -(Int.ofNat n)
      | _ => (digits? cs).map Int.ofNat
    else none

/-- The fraction after a point, and what follows it. -/
def fraction (cs : List Char) : List Char × List Char :=
  match cs with
  | '.' :: rest => (rest.takeWhile Char.isDigit, rest.dropWhile Char.isDigit)
  | _ => ([], cs)

/-- An unsigned decimal. -/
def decimal? (cs : List Char) : Option Decimal :=
  let whole := cs.takeWhile Char.isDigit
  let (part, rest) := fraction (cs.dropWhile Char.isDigit)
  (digits? (whole ++ part)).bind fun value =>
    (exponent? rest).map fun e => ⟨value, e - part.length⟩

/-- The number of decimal digits of a natural number; none for zero. -/
def digitCount (n : Nat) : Nat := if n = 0 then 0 else (Nat.toDigits 10 n).length

/-- The single precision number nearest to a decimal.  A decimal of `10 ^ 39`
or more is beyond the largest number, and one below `10 ^ -46` is closer to
zero than to the smallest, so neither needs its power of ten. -/
def Decimal.toFloat32 (d : Decimal) : Float32 :=
  let size : Int := d.exponent + digitCount d.digits
  if d.digits = 0 ∨ size < -45 then Float32.ofBits 0
  else if 39 < size then Float32.ofBits 0x7F800000
  else Float32.ofScientific d.digits (d.exponent < 0) d.exponent.natAbs

/-- An unsigned number: a decimal, or one of the words for infinity and for
the value that is no number. -/
def unsignedFloat? (cs : List Char) : Option Float32 :=
  match decimal? cs with
  | some d => some d.toFloat32
  | none =>
    let word := String.ofList (cs.map Char.toLower)
    if word = "inf" ∨ word = "infinity" then some (Float32.ofBits 0x7F800000)
    else if word = "nan" then some (Float32.ofBits 0x7FC00000)
    else none

/-- A single precision number with an optional sign. -/
def float32? (cs : List Char) : Option Float32 :=
  match cs with
  | '+' :: rest => unsignedFloat? rest
  | '-' :: rest => (unsignedFloat? rest).map (- ·)
  | _ => unsignedFloat? cs

end NeuralC.Text
