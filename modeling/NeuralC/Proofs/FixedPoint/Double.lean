import Mathlib
import NeuralC.FixedPoint

/-!
# NeuralC.Proofs.FixedPoint.Double

Clamping in double precision.  A double that is finite is a mantissa of 53 bits
times a power of two, and doubles are compared by their exponents first.  So a
double that is not above a bound has no more whole units than the bound
(`wholeUnits_le`), and what is clamped to the integers of a width is one of them,
whatever the double is (`clampFloat_mem`): also where scaling made it infinite,
and where it is no number at all.
-/

namespace NeuralC

open Float.Model
open Float.Model.UnpackedFloat hiding unpack

/-! ## Whole units -/

theorem mantissa_shiftRight (em : ExtendedMantissa) (k : Nat) :
    (em >>> k).mantissa = em.mantissa / 2 ^ k := by
  induction k with
  | zero => simp [HShiftRight.hShiftRight, Nat.repeat]
  | succ k ih =>
      show (em >>> k).mantissa / 2 = em.mantissa / 2 ^ (k + 1)
      rw [ih, Nat.div_div_eq_div_mul, pow_succ]

/-- Where the exponent is not above zero, the whole units are the mantissa without its last
digits. -/
theorem roundToInt_of_nonpos (s : Sign) (m : Nat) {e : Int} (he : e ≤ 0) :
    roundToInt s m e = s.apply ↑(m / 2 ^ (-e).toNat) := by
  have hkeep : decreaseExponent m e 0 = (m, e) := by
    have hz : e.toNat = 0 := by omega
    simp [decreaseExponent, hz]
  simp only [roundToInt, hkeep, shiftToExponent, mantissa_shiftRight, Int.zero_sub]
  rfl

/-- A double has a mantissa of 53 bits. -/
theorem mantissa_lt_of_unpack {b : BitVec 64} {s : Sign} {m : Nat} {e : Int} {hm : 0 < m}
    (h : UnpackedFloat.unpack .binary64 b = .finite s m e hm) : m < 2 ^ 53 := by
  unfold UnpackedFloat.unpack at h
  dsimp only at h
  split_ifs at h
  · -- a number without leading one
    cases h
    have hlt : (@unpackMantissa .binary64 b).toNat < 2 ^ 52 := BitVec.isLt _
    omega
  · cases h
    exact BitVec.isLt _

/-- Mantissa and exponent are not above those of a bound. -/
def NotAbove (m : Nat) (e : Int) (n : Nat) (f : Int) : Prop := e < f ∨ e = f ∧ m ≤ n

/-- A number that is not above a bound has no more whole units. -/
theorem wholeUnits_le {m n : Nat} {e f : Int} (hm : m < 2 ^ 53) (hn : 2 ^ 52 ≤ n) (hf : f ≤ 0)
    (h : NotAbove m e n f) : m / 2 ^ (-e).toNat ≤ n / 2 ^ (-f).toNat := by
  rcases h with hlt | ⟨rfl, hle⟩
  · -- the mantissa is below twice the other, and is shifted by one place more at least
    calc m / 2 ^ (-e).toNat ≤ m / 2 ^ (1 + (-f).toNat) :=
          Nat.div_le_div_left (Nat.pow_le_pow_right (by omega) (by omega)) (by positivity)
      _ = m / 2 / 2 ^ (-f).toNat := by rw [pow_add, pow_one, Nat.div_div_eq_div_mul]
      _ ≤ n / 2 ^ (-f).toNat := Nat.div_le_div_right (by omega)
  · exact Nat.div_le_div_right hle

/-- Comparison of mantissa and exponent is comparison of numbers. -/
theorem notAbove_of_compare {m n : Nat} {e f : Int}
    (h : (compare f e).then (compare n m) ≠ .lt) : NotAbove m e n f := by
  rw [NotAbove]
  by_contra hnot
  apply h
  rcases lt_trichotomy f e with hlt | rfl | hgt
  · rw [compare_lt_iff_lt.mpr hlt]
    rfl
  · rw [compare_eq_iff_eq.mpr rfl, compare_lt_iff_lt.mpr (by omega)]
    rfl
  · omega

/-! ## Bounds -/

/-- What is not less is not found to be less. -/
theorem compare_ne_of_not_lt {x y : Float} (h : ¬ x < y) :
    x.toModel.unpack.compare y.toModel.unpack ≠ some .lt := by
  intro hlt
  apply h
  show decide (x.toModel.lt y.toModel = true) = true
  rw [decide_eq_true_eq]
  show (x.toModel.unpack.compare y.toModel.unpack == some .lt) = true
  rw [hlt]
  rfl

/-- Mantissa and exponent of a double that stands for `n` units, with a leading one. -/
structure Spells (m : Nat) (e : Int) (n : Nat) : Prop where
  normal : 2 ^ 52 ≤ m
  nonpos : e ≤ 0
  units : m / 2 ^ (-e).toNat = n

/-- A number that is not above a bound is cut off to as many units as the bound has at most. -/
theorem NotAbove.exists_units {m n k : Nat} {e f : Int} (h : NotAbove m e n f) (hm : m < 2 ^ 53)
    (hn : Spells n f k) (s : Sign) :
    ∃ units : Nat, units ≤ k ∧ roundToInt s m e = s.apply units := by
  have hf := hn.nonpos
  have he : e ≤ 0 := by
    rcases h with hlt | ⟨rfl, -⟩ <;> omega
  exact ⟨_, hn.units ▸ wholeUnits_le hm hn.normal hf h, roundToInt_of_nonpos s m he⟩

namespace IntegerWidth

/-- The greatest value of an integer type is a double. -/
theorem exists_unpack_greatest (w : IntegerWidth) : ∃ m e hm,
    (Float.ofInt w.greatest).toModel.unpack = .finite .positive m e hm ∧
      Spells m e w.greatest.toNat := by
  cases w with
  | w8 => exact ⟨127 * 2 ^ 46, -46, by decide, rfl, by decide, by decide, by decide⟩
  | w16 => exact ⟨32767 * 2 ^ 38, -38, by decide, rfl, by decide, by decide, by decide⟩
  | w32 => exact ⟨2147483647 * 2 ^ 22, -22, by decide, rfl, by decide, by decide, by decide⟩

/-- The least value of an integer type is a double. -/
theorem exists_unpack_least (w : IntegerWidth) : ∃ m e hm,
    (Float.ofInt w.least).toModel.unpack = .finite .negative m e hm ∧
      Spells m e (-w.least).toNat := by
  cases w with
  | w8 => exact ⟨2 ^ 52, -45, by decide, rfl, by decide, by decide, by decide⟩
  | w16 => exact ⟨2 ^ 52, -37, by decide, rfl, by decide, by decide, by decide⟩
  | w32 => exact ⟨2 ^ 52, -21, by decide, rfl, by decide, by decide, by decide⟩

theorem least_nonpos (w : IntegerWidth) : w.least ≤ 0 := by
  cases w <;> decide

theorem greatest_nonneg (w : IntegerWidth) : 0 ≤ w.greatest := by
  cases w <;> decide

end IntegerWidth

/-! ## Clamping -/

/-- A double that is a number and lies between the bounds has its whole units between them. -/
theorem toInt_mem (w : IntegerWidth) {x : Float} (hnan : x.toModel.unpack ≠ .notANumber)
    (hlo : ¬ x < Float.ofInt w.least) (hhi : ¬ Float.ofInt w.greatest < x) (below above : Int) :
    w.least ≤ x.toModel.unpack.toInt below above ∧
      x.toModel.unpack.toInt below above ≤ w.greatest := by
  obtain ⟨mlo, elo, hmlo, hleast, hspell⟩ := w.exists_unpack_least
  obtain ⟨mhi, ehi, hmhi, hgreatest, hspell'⟩ := w.exists_unpack_greatest
  have hneg := w.least_nonpos
  have hpos := w.greatest_nonneg
  have hlo := compare_ne_of_not_lt hlo
  have hhi := compare_ne_of_not_lt hhi
  rw [hleast] at hlo
  rw [hgreatest] at hhi
  cases hu : x.toModel.unpack with
  | notANumber => exact absurd hu hnan
  | zero s => exact ⟨hneg, hpos⟩
  | infinity s =>
      rw [hu] at hlo hhi
      cases s with
      | positive => exact absurd rfl hhi
      | negative => exact absurd rfl hlo
  | finite s m e hm =>
      have hlt : m < 2 ^ 53 := mantissa_lt_of_unpack hu
      rw [hu] at hlo hhi
      cases s with
      | positive =>
          have hbound : NotAbove m e mhi ehi := notAbove_of_compare fun h => hhi (congrArg some h)
          obtain ⟨units, hunits, hround⟩ := hbound.exists_units hlt hspell' .positive
          have hint : toInt below above (.finite .positive m e hm) = units := hround
          omega
      | negative =>
          have hbound : NotAbove m e mlo elo := by
            -- negative numbers are compared the other way round
            refine notAbove_of_compare fun h => hlo (congrArg some ?_)
            rwa [Ordering.swap_then, ← Std.OrientedOrd.eq_swap, ← Std.OrientedOrd.eq_swap]
          obtain ⟨units, hunits, hround⟩ := hbound.exists_units hlt hspell .negative
          have hint : toInt below above (.finite .negative m e hm) = -units := hround
          omega

/-- What is clamped to a width lies in it, whatever the double is. -/
theorem clampFloat_mem (w : IntegerWidth) (x : Float) :
    w.least ≤ clampFloat w.least w.greatest x ∧ clampFloat w.least w.greatest x ≤ w.greatest := by
  have hneg := w.least_nonpos
  have hpos := w.greatest_nonneg
  unfold clampFloat
  split_ifs with hnan hlo hhi
  · exact ⟨hneg, hpos⟩
  · omega
  · omega
  · have hnumber : x.toModel.unpack ≠ .notANumber := by
      intro hu
      apply hnan
      show x.toModel.unpack.isNaN = true
      rw [hu]
      rfl
    have hmem := toInt_mem w hnumber hlo hhi Int64.minValue.toInt Int64.maxValue.toInt
    have hleast : Int64.minValue.toInt ≤ w.least := by cases w <;> decide
    have hgreatest : w.greatest ≤ Int64.maxValue.toInt := by cases w <;> decide
    have hkeep : x.toModel.toInt64.toInt =
        x.toModel.unpack.toInt Int64.minValue.toInt Int64.maxValue.toInt :=
      Int64.toInt_ofIntClamp (hleast.trans hmem.1) (hmem.2.trans hgreatest)
    rwa [hkeep]

end NeuralC
