/-!
# NeuralC.C.HexFloat

Single precision numbers as hexadecimal C literals, such as `0x1.8p+0` for
1.5.  The literal gives the bits of the number exactly: a leading one, as many
hexadecimal digits of the fraction as are not trailing zeros, and the exponent
of two.
-/

namespace NeuralC.C

/-- Sign, biased exponent and fraction of a bit pattern. -/
structure FloatFields where
  negative : Bool
  biased : Nat
  fraction : Nat
deriving DecidableEq, Repr

/-- The fields of a bit pattern. -/
def FloatFields.ofBits (bits : Nat) : FloatFields :=
  ⟨bits / 0x80000000 % 2 == 1, bits / 0x800000 % 0x100, bits % 0x800000⟩

/-- A number as a leading one, 23 bits of fraction behind it and an exponent
of two. -/
structure Normalized where
  fraction : Nat
  exponent : Int
deriving DecidableEq, Repr

/-- The normal form of a finite number other than zero.  The fraction of a
number below the normal range is shifted until its leading one is gone. -/
def FloatFields.normalize (f : FloatFields) : Normalized :=
  if f.biased = 0 then
    let shift := 23 - f.fraction.log2
    ⟨f.fraction <<< shift - 0x800000, -126 - Int.ofNat shift⟩
  else ⟨f.fraction, Int.ofNat f.biased - 127⟩

/-- The hexadecimal digits of a fraction of 23 bits, without trailing
zeros. -/
def fractionDigits (fraction : Nat) : List Nat :=
  let units := [0x100000, 0x10000, 0x1000, 0x100, 0x10, 1]
  let digits := units.map fun unit => fraction * 2 / unit % 16
  (digits.reverse.dropWhile (· == 0)).reverse

/-- An integer with its sign, also when positive. -/
def signed (i : Int) : String := if i < 0 then toString i else s!"+{i}"

/-- A normal form as a literal. -/
def Normalized.render (n : Normalized) : String :=
  let digits := String.ofList ((fractionDigits n.fraction).map Nat.digitChar)
  let fraction := if digits.isEmpty then "" else "." ++ digits
  s!"0x1{fraction}p{signed n.exponent}"

/-- Fields as a literal. -/
def FloatFields.render (f : FloatFields) : String :=
  let sign := if f.negative then "-" else ""
  if f.biased = 255 then if f.fraction = 0 then sign ++ "INFINITY" else "NAN"
  else if f.biased = 0 ∧ f.fraction = 0 then sign ++ "0x0p+0"
  else sign ++ f.normalize.render

/-- A number as a literal. -/
def hexFloat (x : Float32) : String := (FloatFields.ofBits x.toBits.toNat).render

end NeuralC.C
