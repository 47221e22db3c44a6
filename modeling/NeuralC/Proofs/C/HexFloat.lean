import Mathlib
import NeuralC.C.HexFloat
import NeuralC.Proofs.Model.Token

/-!
# NeuralC.Proofs.C.HexFloat

Hexadecimal literals are exact.  `hexLiteral?` reads a literal by the rules of C:
digits with a point among them, times a power of two.  `valueOf` is the number
that a pattern of 32 bits stands for, and `hexLiteral?_hexFloat` says that the
literal of a finite pattern is read as just that number.

The proof follows the literal from the inside out.  The digits of a fraction are
worth the fraction (`hexValue_fractionDigits`), a normal form is read as its value
(`unsignedHex?_render`), and shifting a fraction up to its leading one keeps the
value (`magnitude_normalize`).  Patterns differ in their values (`valueOf_inj`), so
they differ in their literals.
-/

namespace NeuralC.C

/-! ## Reading literals -/

def hexDigit? (c : Char) : Option Nat :=
  if '0' ≤ c ∧ c ≤ '9' then some (c.toNat - '0'.toNat)
  else if 'a' ≤ c ∧ c ≤ 'f' then some (c.toNat - 'a'.toNat + 10)
  else if 'A' ≤ c ∧ c ≤ 'F' then some (c.toNat - 'A'.toNat + 10)
  else none

/-- The hexadecimal digits in front of a text, and what follows them. -/
def hexRun : List Char → List Nat × List Char
  | [] => ([], [])
  | c :: cs =>
    match hexDigit? c with
    | some d => (d :: (hexRun cs).1, (hexRun cs).2)
    | none => ([], c :: cs)

/-- The digits behind a point, and what follows them. -/
def hexPart : List Char → List Nat × List Char
  | '.' :: cs => hexRun cs
  | cs => ([], cs)

/-- The number that hexadecimal digits spell. -/
def hexValue (ds : List Nat) : Nat := Nat.ofDigits 16 ds.reverse

/-- An exponent in decimal, with or without a sign. -/
def exponentOf? : List Char → Option Int
  | '+' :: cs => (Text.digits? cs).map Int.ofNat
  | '-' :: cs => (Text.digits? cs).map fun n => -Int.ofNat n
  | cs => (Text.digits? cs).map Int.ofNat

/-- The value of a literal without sign: its digits, those behind the point as a fraction, times
a power of two.  There has to be a digit, and the exponent is not optional. -/
def unsignedHex? : List Char → Option ℚ
  | '0' :: 'x' :: cs =>
    let whole := hexRun cs
    let part := hexPart whole.2
    match part.2 with
    | 'p' :: exponent =>
      if whole.1 = [] ∧ part.1 = [] then none
      else (exponentOf? exponent).map fun e =>
        ((hexValue whole.1 : ℚ) + hexValue part.1 / 16 ^ part.1.length) * 2 ^ e
    | _ => none
  | _ => none

/-- A sign and a magnitude; zero has either sign. -/
structure SignedValue where
  negative : Bool
  magnitude : ℚ
deriving DecidableEq

/-- The value of a literal, which may stand behind a minus. -/
def hexLiteral? (text : String) : Option SignedValue :=
  match text.toList with
  | '-' :: cs => (unsignedHex? cs).map fun m => ⟨true, m⟩
  | cs => (unsignedHex? cs).map fun m => ⟨false, m⟩

/-- A hexadecimal digit is read back. -/
theorem hexDigit?_digitChar {d : Nat} (hd : d < 16) : hexDigit? d.digitChar = some d := by
  have hall : ∀ d : Fin 16, hexDigit? (Nat.digitChar d) = some d.val := by decide
  exact hall ⟨d, hd⟩

/-- Digits are read up to the first character that is none. -/
theorem hexRun_append {ds : List Nat} {c : Char} {cs : List Char} (hds : ∀ d ∈ ds, d < 16)
    (hc : hexDigit? c = none) : hexRun (ds.map Nat.digitChar ++ c :: cs) = (ds, c :: cs) := by
  induction ds with
  | nil => simp [hexRun, hc]
  | cons d ds ih =>
      have hd : hexDigit? d.digitChar = some d := hexDigit?_digitChar (hds d List.mem_cons_self)
      have hrun := ih fun e he => hds e (List.mem_cons_of_mem d he)
      simp [hexRun, hd, hrun]

theorem toList_toString_of_nonneg {i : Int} (hi : 0 ≤ i) :
    (toString i).toList = Nat.toDigits 10 i.toNat := by
  rw [Int.toString_eq_repr, Int.repr_eq_if, if_pos hi, Nat.toList_repr]

theorem toList_toString_of_neg {i : Int} (hi : i < 0) :
    (toString i).toList = '-' :: Nat.toDigits 10 (-i).toNat := by
  rw [Int.toString_eq_repr, Int.repr_eq_if, if_neg (by omega), String.toList_append,
    Nat.toList_repr]
  rfl

/-- The sign of an exponent and its digits are read as the exponent. -/
theorem exponentOf?_signed (e : Int) : exponentOf? (signed e).toList = some e := by
  have hdigits : ∀ n : Nat, Text.digits? (Nat.toDigits 10 n) = some n := by
    intro n
    rw [Text.digits?.eq_2 _ Nat.toDigits_ne_nil, Text.digitsFrom?_toDigits]
  unfold signed
  split
  · next he =>
    rw [toList_toString_of_neg he, exponentOf?, hdigits]
    simp only [Option.map_some, Option.some.injEq, Int.ofNat_eq_natCast]
    omega
  · next he =>
    have htext : (s!"+{e}").toList = '+' :: (toString e).toList := by
      simp
      rfl
    rw [htext, toList_toString_of_nonneg (by omega), exponentOf?, hdigits]
    simp only [Option.map_some, Option.some.injEq, Int.ofNat_eq_natCast]
    omega

/-! ## Digits of a fraction -/

/-- The digits of a fraction are hexadecimal. -/
theorem lt_of_mem_fractionDigits {fraction d : Nat} (hd : d ∈ fractionDigits fraction) :
    d < 16 := by
  unfold fractionDigits at hd
  have hall := List.mem_reverse.mp (List.dropWhile_subset _ (List.mem_reverse.mp hd))
  obtain ⟨unit, -, rfl⟩ := List.mem_map.mp hall
  exact Nat.mod_lt _ (by omega)

/-- Zeros behind the last digit do not count. -/
theorem ofDigits_dropWhile (ds : List Nat) :
    ((Nat.ofDigits 16 (ds.dropWhile (· == 0)) : Nat) : ℚ) / 16 ^ (ds.dropWhile (· == 0)).length =
      ((Nat.ofDigits 16 ds : Nat) : ℚ) / 16 ^ ds.length := by
  induction ds with
  | nil => rfl
  | cons d ds ih =>
      by_cases hd : d = 0
      · subst hd
        rw [List.dropWhile_cons_of_pos (by simp), ih, Nat.ofDigits_cons, List.length_cons, pow_succ]
        push_cast
        field_simp
        ring
      · rw [List.dropWhile_cons_of_neg (by simpa using hd)]

/-- The digits of a fraction of 23 bits are worth that fraction. -/
theorem hexValue_fractionDigits {fraction : Nat} (hf : fraction < 2 ^ 23) :
    (hexValue (fractionDigits fraction) : ℚ) / 16 ^ (fractionDigits fraction).length =
      fraction / 2 ^ 23 := by
  have hsum : fraction * 2 / 1 % 16 + 16 * (fraction * 2 / 0x10 % 16 +
      16 * (fraction * 2 / 0x100 % 16 + 16 * (fraction * 2 / 0x1000 % 16 +
        16 * (fraction * 2 / 0x10000 % 16 + 16 * (fraction * 2 / 0x100000 % 16))))) =
      fraction * 2 := by
    omega
  unfold fractionDigits hexValue
  rw [List.reverse_reverse, List.length_reverse, ofDigits_dropWhile]
  simp only [List.map_cons, List.map_nil, List.reverse_cons, List.reverse_nil, List.nil_append,
    List.cons_append, Nat.ofDigits_cons, Nat.ofDigits_nil, List.length_cons, List.length_nil,
    Nat.mul_zero, Nat.add_zero, hsum]
  push_cast
  ring

/-! ## Normal forms -/

def Normalized.magnitude (n : Normalized) : ℚ := (1 + n.fraction / 2 ^ 23) * 2 ^ n.exponent

/-- The text of a normal form. -/
theorem Normalized.toList_render (n : Normalized) :
    n.render.toList = '0' :: 'x' :: ([1].map Nat.digitChar ++
      ((if fractionDigits n.fraction = [] then []
        else '.' :: (fractionDigits n.fraction).map Nat.digitChar) ++
          'p' :: (signed n.exponent).toList)) := by
  unfold render
  cases hds : fractionDigits n.fraction with
  | nil => simp [toString]
  | cons d ds => simp [toString]

/-- A normal form is read as its value. -/
theorem Normalized.unsignedHex?_render {n : Normalized} (hn : n.fraction < 2 ^ 23) :
    unsignedHex? n.render.toList = some n.magnitude := by
  have hp : hexDigit? 'p' = none := by decide
  have hpoint : hexDigit? '.' = none := by decide
  have hdigits : ∀ d ∈ fractionDigits n.fraction, d < 16 := fun d => lt_of_mem_fractionDigits
  have hone : ∀ d ∈ [1], d < 16 := by simp
  have hvalue := hexValue_fractionDigits hn
  have hwhole : hexValue [1] = 1 := by decide
  rw [toList_render, magnitude, ← hvalue]
  split
  · next hnil =>
    rw [List.nil_append, unsignedHex?, hexRun_append hone hp]
    simp [hexPart, exponentOf?_signed, hwhole, hnil]
  · rw [unsignedHex?, List.cons_append, hexRun_append hone hpoint]
    simp [hexPart, hexRun_append hdigits hp, exponentOf?_signed, hwhole]

/-! ## Shifting up to the leading one -/

/-- Doubling a fraction while its bit 23 is clear, with the exponent lowered each time, ends with
a normal form. -/
inductive Shifts : Nat → Int → Normalized → Prop where
  | stop {m : Nat} {e : Int} (hbit : m.testBit 23 = true) : Shifts m e ⟨m % 2 ^ 23, e⟩
  | turn {m : Nat} {e : Int} {n : Normalized} (hbit : m.testBit 23 = false)
    (hrest : Shifts (m <<< 1) (e - 1) n) : Shifts m e n

/-- As many turns are needed as the leading one is away from bit 23. -/
theorem shifts_of_log2 {k m : Nat} (e : Int) (hm : m ≠ 0) (hk : m.log2 + k = 23) :
    Shifts m e ⟨m <<< k - 2 ^ 23, e - k⟩ := by
  induction k generalizing m e with
  | zero =>
      have hlow : 2 ^ 23 ≤ m := (Nat.le_log2 hm).mp (by omega)
      have hhigh : m < 2 ^ 24 := (Nat.log2_lt hm).mp (by omega)
      have hbit : m.testBit 23 = true := by
        rw [Nat.testBit_eq_decide_div_mod_eq]
        simp
        omega
      have hrest : m <<< 0 - 2 ^ 23 = m % 2 ^ 23 := by
        rw [Nat.shiftLeft_zero]
        omega
      rw [hrest, Int.natCast_zero, Int.sub_zero]
      exact .stop hbit
  | succ k ih =>
      have hlow : m < 2 ^ 23 := (Nat.log2_lt hm).mp (by omega)
      have hbit : m.testBit 23 = false := Nat.testBit_lt_two_pow hlow
      have hdouble : m <<< 1 = 2 * m := by
        rw [Nat.shiftLeft_eq]
        omega
      have hlog : (m <<< 1).log2 = m.log2 + 1 := by
        rw [hdouble, Nat.log2_two_mul hm]
      have hturn := ih (m := m <<< 1) (e - 1) (by omega) (by omega)
      rw [← Nat.shiftLeft_add, Nat.add_comm 1 k] at hturn
      rw [show e - ((k + 1 : Nat) : Int) = e - 1 - k by omega]
      exact .turn hbit hturn

def FloatFields.magnitude (f : FloatFields) : ℚ :=
  if f.biased = 0 then f.fraction / 2 ^ 23 * 2 ^ (-126 : ℤ)
  else (1 + f.fraction / 2 ^ 23) * 2 ^ ((f.biased : ℤ) - 127)

/-- Normalizing a subnormal value moves its point and keeps the value. -/
theorem FloatFields.shifts_normalize {f : FloatFields} (hb : f.biased = 0) (hf : f.fraction ≠ 0)
    (hlt : f.fraction < 2 ^ 23) : Shifts f.fraction (-126) f.normalize := by
  have hlog : f.fraction.log2 < 23 := (Nat.log2_lt hf).mpr hlt
  unfold normalize
  rw [if_pos hb]
  exact shifts_of_log2 (-126) hf (by omega)

/-- Shifting does not change the value. -/
theorem Shifts.magnitude_eq {m : Nat} {e : Int} {n : Normalized} (hs : Shifts m e n)
    (hm : m < 2 ^ 24) : n.fraction < 2 ^ 23 ∧ n.magnitude = m / 2 ^ 23 * 2 ^ e := by
  induction hs with
  | @stop m e hbit =>
      have hlow : 2 ^ 23 ≤ m := Nat.ge_two_pow_of_testBit hbit
      have hsum : m % 2 ^ 23 + 2 ^ 23 = m := by omega
      have hcast : ((m % 2 ^ 23 : Nat) : ℚ) + 2 ^ 23 = m := by exact_mod_cast hsum
      refine ⟨Nat.mod_lt _ (by decide), ?_⟩
      unfold Normalized.magnitude
      rw [← hcast]
      ring
  | @turn m e n hbit _ ih =>
      have hlow : m < 2 ^ 23 := by
        by_contra hge
        rw [Nat.testBit_eq_decide_div_mod_eq] at hbit
        simp at hbit
        omega
      have hdouble : m <<< 1 = 2 * m := by
        rw [Nat.shiftLeft_eq]
        omega
      obtain ⟨hfraction, hvalue⟩ := ih (by omega)
      refine ⟨hfraction, ?_⟩
      rw [hvalue, hdouble, zpow_sub_one₀ (by norm_num)]
      push_cast
      ring

/-- The normal form of a number other than zero has its value. -/
theorem FloatFields.magnitude_normalize {f : FloatFields} (hf : f.fraction < 2 ^ 23)
    (hne : ¬ (f.biased = 0 ∧ f.fraction = 0)) :
    f.normalize.fraction < 2 ^ 23 ∧ f.normalize.magnitude = f.magnitude := by
  by_cases hb : f.biased = 0
  · have hshifts := shifts_normalize hb (fun h0 => hne ⟨hb, h0⟩) hf
    rw [magnitude, if_pos hb]
    exact hshifts.magnitude_eq (by omega)
  · unfold normalize magnitude
    rw [if_neg hb, if_neg hb]
    exact ⟨hf, rfl⟩

/-- A finite number is read with its sign and its value. -/
theorem FloatFields.hexLiteral?_render {f : FloatFields} (hf : f.fraction < 2 ^ 23)
    (hb : f.biased ≠ 255) : hexLiteral? f.render = some ⟨f.negative, f.magnitude⟩ := by
  have hunsigned : ∃ cs, (f.render.toList = if f.negative then '-' :: '0' :: cs else '0' :: cs) ∧
      unsignedHex? ('0' :: cs) = some f.magnitude := by
    unfold render
    rw [if_neg hb]
    split
    · next hzero =>
      have hvalue : f.magnitude = 0 := by
        rw [magnitude, if_pos hzero.1, hzero.2]
        simp
      refine ⟨"x0p+0".toList, ?_, ?_⟩
      · cases f.negative <;> rfl
      · rw [hvalue]
        decide +kernel
    · next hne =>
      obtain ⟨hlt, hvalue⟩ := magnitude_normalize hf hne
      have htext := f.normalize.toList_render
      have hread := Normalized.unsignedHex?_render hlt
      rw [htext, hvalue] at hread
      refine ⟨_, ?_, hread⟩
      cases f.negative <;> simp [htext]
  obtain ⟨cs, htext, hread⟩ := hunsigned
  unfold hexLiteral?
  rw [htext]
  cases f.negative <;> simp [hread]

/-! ## Patterns of bits -/

/-- The pattern is that of a finite number: its exponent is not the greatest. -/
def IsFinite (bits : UInt32) : Prop := bits.toNat / 2 ^ 23 % 2 ^ 8 ≠ 2 ^ 8 - 1

/-- The number that a finite pattern stands for: the first bit is the sign, eight bits are the
exponent and 23 the fraction, behind a leading one unless the exponent is the least. -/
def valueOf (bits : UInt32) : SignedValue :=
  let exponent : Nat := bits.toNat / 2 ^ 23 % 2 ^ 8
  let fraction : Nat := bits.toNat % 2 ^ 23
  ⟨bits.toNat.testBit 31,
    if exponent = 0 then fraction / 2 ^ 23 * 2 ^ (-126 : ℤ)
    else (1 + fraction / 2 ^ 23) * 2 ^ ((exponent : ℤ) - 127)⟩

/-- The number of a finite pattern has that pattern. -/
theorem toBits_ofBits {bits : UInt32} (hfinite : IsFinite bits) :
    (Float32.ofBits bits).toBits = bits := by
  have hexponent : @Float.Model.UnpackedFloat.unpackExponent .binary32 bits.toBitVec ≠ 255#8 := by
    intro he
    have hnat := congrArg BitVec.toNat he
    apply hfinite
    simpa [Float.Model.UnpackedFloat.unpackExponent, BitVec.extractLsb,
      Nat.shiftRight_eq_div_pow] using hnat
  have hnan : @Float.Model.UnpackedFloat.isNaNBits .binary32 bits.toBitVec = false := by
    simp [Float.Model.UnpackedFloat.isNaNBits, hexponent]
  apply UInt32.toBitVec_inj.mp
  show Float.Model.UnpackedFloat.pack .binary32 (.unpack .binary32 bits.toBitVec) = bits.toBitVec
  rw [Float.Model.UnpackedFloat.pack_unpack, hnan]
  rfl

/-- The literal of a finite pattern is read as the number that the pattern stands for. -/
theorem hexLiteral?_hexFloat {bits : UInt32} (hfinite : IsFinite bits) :
    hexLiteral? (hexFloat (.ofBits bits)) = some (valueOf bits) := by
  have hfraction : (FloatFields.ofBits bits.toNat).fraction < 2 ^ 23 := Nat.mod_lt _ (by decide)
  have hnegative : (FloatFields.ofBits bits.toNat).negative = bits.toNat.testBit 31 := by
    rw [Nat.testBit_eq_decide_div_mod_eq]
    rfl
  rw [hexFloat, toBits_ofBits hfinite, FloatFields.hexLiteral?_render hfraction hfinite, hnegative]
  rfl

/-! ## Distinct patterns -/

/-- The magnitude of a pattern in units of the least one. -/
def units (exponent fraction : Nat) : Nat :=
  if exponent = 0 then fraction else (2 ^ 23 + fraction) * 2 ^ (exponent - 1)

/-- The magnitude of a float in units of the least subnormal. -/
theorem magnitude_eq_units (bits : UInt32) :
    (valueOf bits).magnitude =
      units (bits.toNat / 2 ^ 23 % 2 ^ 8) (bits.toNat % 2 ^ 23) / 2 ^ 149 := by
  simp only [valueOf, units]
  cases bits.toNat / 2 ^ 23 % 2 ^ 8 with
  | zero =>
      simp
      ring
  | succ k =>
      have hpower : (2 : ℚ) ^ (((k + 1 : Nat) : ℤ) - 127) = 2 ^ k / 2 ^ 126 := by
        rw [show ((k + 1 : Nat) : ℤ) - 127 = (k : ℤ) - (126 : Nat) by omega,
          zpow_sub₀ (by norm_num), zpow_natCast, zpow_natCast]
      rw [if_neg (by omega), if_neg (by omega), hpower, Nat.add_sub_cancel]
      push_cast
      ring

/-- A greater exponent makes a greater magnitude. -/
theorem units_lt_of_lt {e e' f : Nat} (f' : Nat) (hf : f < 2 ^ 23) (he : e < e') :
    units e f < units e' f' := by
  have hlow : 2 ^ (22 + e') ≤ units e' f' := by
    rw [units, if_neg (by omega), show 22 + e' = 23 + (e' - 1) by omega, pow_add]
    exact Nat.mul_le_mul_right _ (by omega)
  have hhigh : units e f < 2 ^ (23 + e) := by
    unfold units
    split
    · next h0 => simpa [h0] using hf
    · next h0 =>
      rw [show 23 + e = 24 + (e - 1) by omega, pow_add]
      exact Nat.mul_lt_mul_of_pos_right (by omega) (by positivity)
  calc units e f < 2 ^ (23 + e) := hhigh
    _ ≤ 2 ^ (22 + e') := Nat.pow_le_pow_right (by omega) (by omega)
    _ ≤ units e' f' := hlow

/-- Exponent and fraction are determined by the magnitude. -/
theorem units_inj {e e' f f' : Nat} (hf : f < 2 ^ 23) (hf' : f' < 2 ^ 23)
    (h : units e f = units e' f') : e = e' ∧ f = f' := by
  rcases Nat.lt_trichotomy e e' with hlt | rfl | hgt
  · have hunits := units_lt_of_lt f' hf hlt
    omega
  · refine ⟨rfl, ?_⟩
    unfold units at h
    split at h
    · exact h
    · have hsum := Nat.eq_of_mul_eq_mul_right (by positivity) h
      omega
  · have hunits := units_lt_of_lt f hf' hgt
    omega

/-- Patterns differ in the numbers that they stand for. -/
theorem valueOf_inj {a b : UInt32} (h : valueOf a = valueOf b) : a = b := by
  have hsign : a.toNat.testBit 31 = b.toNat.testBit 31 := congrArg SignedValue.negative h
  have hmagnitude := congrArg SignedValue.magnitude h
  rw [magnitude_eq_units, magnitude_eq_units, div_left_inj' (by positivity)] at hmagnitude
  obtain ⟨hexponent, hfraction⟩ := units_inj (Nat.mod_lt _ (by decide)) (Nat.mod_lt _ (by decide))
    (Nat.cast_injective hmagnitude)
  rw [Nat.testBit_eq_decide_div_mod_eq, Nat.testBit_eq_decide_div_mod_eq, decide_eq_decide] at hsign
  have ha := a.toNat_lt
  have hb := b.toNat_lt
  apply UInt32.toNat_inj.mp
  omega

/-- **Hexadecimal literals are exact.**  The literal of a finite pattern is read as the number that
the pattern stands for, no other finite pattern has that literal, and the shifts that bring a
fraction without leading one into normal form come to an end. -/
theorem hexFloat_exact (bits : UInt32) (hfinite : IsFinite bits) :
    hexLiteral? (hexFloat (.ofBits bits)) = some (valueOf bits) ∧
      (∀ other, IsFinite other → hexFloat (.ofBits other) = hexFloat (.ofBits bits) →
        other = bits) ∧
      (bits.toNat / 2 ^ 23 % 2 ^ 8 = 0 → bits.toNat % 2 ^ 23 ≠ 0 →
        Shifts (bits.toNat % 2 ^ 23) (-126) (FloatFields.ofBits bits.toNat).normalize) := by
  refine ⟨hexLiteral?_hexFloat hfinite, fun other hother hsame => ?_, fun hleast hfraction => ?_⟩
  · have hvalues := (hexLiteral?_hexFloat hother).symm.trans
      ((congrArg hexLiteral? hsame).trans (hexLiteral?_hexFloat hfinite))
    exact valueOf_inj (Option.some.inj hvalues)
  · have hlt : bits.toNat % 2 ^ 23 < 2 ^ 23 := Nat.mod_lt _ (by decide)
    exact FloatFields.shifts_normalize (f := .ofBits bits.toNat) hleast hfraction hlt

/-- The least number above zero. -/
theorem hexFloat_exact_least :
    IsFinite 1 ∧ hexFloat (.ofBits 1) = "0x1p-149" ∧
      hexLiteral? (hexFloat (.ofBits 1)) = some ⟨false, 1 / 2 ^ 149⟩ ∧
      Shifts 1 (-126) ⟨0, -149⟩ := by
  have hfinite : IsFinite 1 := by unfold IsFinite; decide
  obtain ⟨hread, -, hshifts⟩ := hexFloat_exact 1 hfinite
  have hvalue : valueOf 1 = ⟨false, 1 / 2 ^ 149⟩ := by decide +kernel
  exact ⟨hfinite, by decide +kernel, hread.trans (congrArg some hvalue),
    hshifts (by decide) (by decide)⟩

end NeuralC.C
