/-!
# NeuralC.Text.Numeral

Decimal numerals.  A natural may carry a plus sign and an integer either
sign; a numeral outside its range is refused, never wrapped.
-/

namespace NeuralC.Text

/-- The value of a decimal digit. -/
def digit? (c : Char) : Option Nat :=
  if '0' ≤ c ∧ c ≤ '9' then some (c.toNat - '0'.toNat) else none

/-- The value of a run of digits read after digits worth `value`. -/
def digitsFrom? (value : Nat) : List Char → Option Nat
  | [] => some value
  | c :: cs => (digit? c).bind fun d => digitsFrom? (10 * value + d) cs

/-- The value of a run of one or more digits. -/
def digits? : List Char → Option Nat
  | [] => none
  | cs => digitsFrom? 0 cs

/-- A natural number of at most `limit`. -/
def natural? (limit : Nat) (cs : List Char) : Option Nat :=
  let body := match cs with
    | '+' :: rest => rest
    | _ => cs
  (digits? body).filter (· ≤ limit)

/-- An integer from `lo` to `hi`. -/
def integer? (lo hi : Int) (cs : List Char) : Option Int :=
  let value := match cs with
    | '+' :: rest => (digits? rest).map Int.ofNat
    | '-' :: rest => (digits? rest).map fun n => -(Int.ofNat n)
    | _ => (digits? cs).map Int.ofNat
  value.filter fun i => lo ≤ i && i ≤ hi

/-- A size: a natural number of 64 bits. -/
def size? (cs : List Char) : Option Nat := natural? 0xFFFFFFFFFFFFFFFF cs

/-- A signed number of 64 bits. -/
def signed64? (cs : List Char) : Option Int :=
  integer? (-0x8000000000000000) 0x7FFFFFFFFFFFFFFF cs

/-- A signed number of 32 bits. -/
def signed32? (cs : List Char) : Option Int := integer? (-0x80000000) 0x7FFFFFFF cs

end NeuralC.Text
