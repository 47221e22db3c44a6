import Mathlib
import NeuralC.Proofs.FixedPoint.Double

/-!
# NeuralC.Proofs.FixedPoint.Rounding

Conversion to fixed point in exact numbers.  `RoundMode.Rounds` says how far a
number may be from the integer that it is rounded to, and a value is converted
to the rounded product with its power of two, clamped to the width
(`quantizeValue_exact`).  So a conversion is monotone and, off the bounds of the
width, has the error of its rounding.

Integers of a width are stored in it as they are (`elements_store`).  Clamping
leaves no others, in exact numbers as in double precision, so storing what was
converted changes no value (`quantizeValue_rounds`).
-/

namespace NeuralC

/-! ## Widths -/

namespace IntegerWidth

theorem least_eq (w : IntegerWidth) : w.least = -2 ^ (w.bits - 1) := by
  cases w <;> rfl

theorem greatest_eq (w : IntegerWidth) : w.greatest = 2 ^ (w.bits - 1) - 1 := by
  cases w <;> rfl

/-- An integer of a width is kept when it is stored in it. -/
theorem elements_store {w : IntegerWidth} {is : List Int}
    (his : ∀ i ∈ is, w.least ≤ i ∧ i ≤ w.greatest) :
    (w.store is).elements = is.map .integer := by
  have hkept {α : Type} {f : Int → α} {g : α → Int} (h : ∀ i ∈ is, g (f i) = i) :
      (is.map f).map (fun a => Element.integer (g a)) = is.map .integer := by
    rw [List.map_map]
    exact List.map_congr_left fun i hi => congrArg Element.integer (h i hi)
  cases w with
  | w8 =>
      refine hkept fun i hi => ?_
      exact Int8.toInt_ofInt_of_le (his i hi).1 (Int.lt_of_le_sub_one (his i hi).2)
  | w16 =>
      refine hkept fun i hi => ?_
      exact Int16.toInt_ofInt_of_le (his i hi).1 (Int.lt_of_le_sub_one (his i hi).2)
  | w32 =>
      refine hkept fun i hi => ?_
      exact Int32.toInt_ofInt_of_le (his i hi).1 (Int.lt_of_le_sub_one (his i hi).2)

end IntegerWidth

/-! ## Exact numbers -/

def Rescaling.exact : Rescaling ℚ where
  scale v s := v * 2 ^ s
  addHalf v := v + 1 / 2
  floor v := ⌊v⌋
  clamp lo hi v := if v < lo then lo else if hi < v then hi else v.num.tdiv v.den

/-- An integer is clamped exactly. -/
theorem clamp_exact_intCast {lo hi : ℤ} (h : lo ≤ hi) (i : ℤ) :
    Rescaling.exact.clamp lo hi i = max lo (min hi i) := by
  simp only [Rescaling.exact, Int.cast_lt, Rat.num_intCast, Rat.den_intCast, Nat.cast_one,
    Int.tdiv_one]
  split_ifs <;> omega

namespace RoundMode

/-- How a number may be rounded: down by less than one, or by at most a half, where a half goes
up. -/
def Rounds : RoundMode → ℚ → ℤ → Prop
  | floor, x, q => 0 ≤ x - q ∧ x - q < 1
  | nearest, x, q => -1 / 2 ≤ x - q ∧ x - q < 1 / 2
  | unset, _, _ => False

/-- What is added before a number is rounded down. -/
def offset : RoundMode → ℚ
  | floor => 0
  | nearest => 1 / 2
  | unset => 0

/-- Adding the offset of a mode and rounding down rounds in that mode. -/
theorem rounds_floor {mode : RoundMode} (hmode : mode ≠ unset) (x : ℚ) :
    mode.Rounds x ⌊x + mode.offset⌋ := by
  have hle := Int.floor_le (x + mode.offset)
  have hlt := Int.lt_floor_add_one (x + mode.offset)
  cases mode with
  | unset => exact absurd rfl hmode
  | floor =>
      simp only [Rounds, offset] at hle hlt ⊢
      constructor <;> linarith
  | nearest =>
      simp only [Rounds, offset] at hle hlt ⊢
      constructor <;> linarith

end RoundMode

/-- The integer of a width that a value is converted to: its product with the power of two,
rounded and clamped. -/
def quantized (w : IntegerWidth) (s : ℤ) (mode : RoundMode) (v : ℚ) : ℤ :=
  max w.least (min w.greatest ⌊v * 2 ^ s + mode.offset⌋)

section Values

variable (w : IntegerWidth) (s : ℤ) (mode : RoundMode)

/-- Quantization with exact numbers rounds and clamps, for every mode that is set. -/
theorem quantizeValue_exact (hmode : mode ≠ .unset) (v : ℚ) :
    quantizeValue .exact w v s mode = .ok (quantized w s mode v) := by
  have hle : w.least ≤ w.greatest := w.least_nonpos.trans w.greatest_nonneg
  rw [quantized, ← clamp_exact_intCast hle]
  cases mode with
  | unset => exact absurd rfl hmode
  | floor =>
      rw [RoundMode.offset, add_zero]
      rfl
  | nearest => rfl

/-- A quantized value fits the integer type. -/
theorem quantized_mem (v : ℚ) :
    w.least ≤ quantized w s mode v ∧ quantized w s mode v ≤ w.greatest := by
  have hneg := w.least_nonpos
  have hpos := w.greatest_nonneg
  rw [quantized]
  omega

/-- A larger value is not converted to a smaller integer. -/
theorem monotone_quantized : Monotone (quantized w s mode) := by
  intro v v' hv
  have hscaled : v * 2 ^ s + mode.offset ≤ v' * 2 ^ s + mode.offset := by gcongr
  exact max_le_max le_rfl (min_le_min le_rfl (Int.floor_mono hscaled))

/-- Off the bounds of the width nothing is clamped. -/
theorem quantized_eq_floor {v : ℚ} (hlo : quantized w s mode v ≠ w.least)
    (hhi : quantized w s mode v ≠ w.greatest) :
    quantized w s mode v = ⌊v * 2 ^ s + mode.offset⌋ := by
  rw [quantized] at hlo hhi ⊢
  omega

end Values

/-! ## Tensors -/

section Tensors

variable {w : IntegerWidth} {s : ℤ} {mode : RoundMode}

/-- Numbers in double precision are converted to integers of the width. -/
theorem exists_quantizeAll (hmode : mode ≠ .unset) (values : List Float32) :
    ∃ is, quantizeAll w s mode values = .ok is ∧ ∀ i ∈ is, w.least ≤ i ∧ i ≤ w.greatest := by
  induction values with
  | nil => exact ⟨[], rfl, by simp⟩
  | cons x values ih =>
      obtain ⟨is, his, hmem⟩ := ih
      obtain ⟨y, hy⟩ : ∃ y, quantizeValue doubleRescaling w x.toFloat s mode =
          .ok (clampFloat w.least w.greatest y) := by
        cases mode with
        | unset => exact absurd rfl hmode
        | floor => exact ⟨_, rfl⟩
        | nearest => exact ⟨_, rfl⟩
      refine ⟨clampFloat w.least w.greatest y :: is, by rw [quantizeAll, hy, his], ?_⟩
      exact List.forall_mem_cons.mpr ⟨clampFloat_mem w y, hmem⟩

end Tensors

/-- Conversion to fixed point keeps to the width, keeps the order, and loses no more than rounding
does.  In exact numbers a value is converted to the integer `r` that its product with the power of
two is rounded to, or to a bound of the width when `r` is beyond it.  Storing converted values in
the width keeps them as they are, and so it does with the numbers of a tensor, which are converted
in double precision. -/
theorem quantizeValue_rounds (w : IntegerWidth) (s : ℤ) (mode : RoundMode)
    (hmode : mode ≠ .unset) :
    (∃ q : ℚ → ℤ, (∀ v, quantizeValue .exact w v s mode = .ok (q v)) ∧
      (∀ v, -2 ^ (w.bits - 1) ≤ q v ∧ q v ≤ 2 ^ (w.bits - 1) - 1) ∧
      Monotone q ∧
      (∀ v, q v ≠ -2 ^ (w.bits - 1) → q v ≠ 2 ^ (w.bits - 1) - 1 →
        mode.Rounds (v * 2 ^ s) (q v)) ∧
      (∀ v, ∃ r, mode.Rounds (v * 2 ^ s) r ∧
        q v = max (-2 ^ (w.bits - 1)) (min (2 ^ (w.bits - 1) - 1) r)) ∧
      ∀ vs : List ℚ, (w.store (vs.map q)).elements = vs.map fun v => .integer (q v)) ∧
    ∀ (t : Tensor) (values : List Float32), t.data = .f32 values →
      ∃ is t', quantizeAll w s mode values = .ok is ∧ quantizeTensor w t s mode = .ok t' ∧
        t'.shape = t.shape ∧ t'.data.elements = is.map .integer := by
  rw [← w.least_eq, ← w.greatest_eq]
  refine ⟨⟨quantized w s mode, quantizeValue_exact w s mode hmode, quantized_mem w s mode,
    monotone_quantized w s mode, fun v hlo hhi => ?_,
    fun v => ⟨_, RoundMode.rounds_floor hmode _, rfl⟩, fun vs => ?_⟩, fun t values ht => ?_⟩
  · rw [quantized_eq_floor w s mode hlo hhi]
    exact RoundMode.rounds_floor hmode _
  · rw [IntegerWidth.elements_store, List.map_map]
    · rfl
    · intro i hi
      obtain ⟨v, -, rfl⟩ := List.mem_map.mp hi
      exact quantized_mem w s mode v
  · obtain ⟨is, his, hmem⟩ := exists_quantizeAll (w := w) (s := s) hmode values
    refine ⟨is, { t with data := w.store is }, his, ?_, rfl, IntegerWidth.elements_store hmem⟩
    simp only [quantizeTensor, ht, his]

/-- A half goes up, also below zero; a large value is clamped; a tensor is stored as converted. -/
theorem quantizeValue_rounds_half :
    RoundMode.nearest ≠ .unset ∧
      quantizeValue .exact .w16 (-1 / 8) 2 .nearest = .ok 0 ∧
      RoundMode.nearest.Rounds (-1 / 8 * 2 ^ (2 : ℤ)) 0 ∧
      (∃ q : ℚ → ℤ, q (-1 / 8) = 0 ∧ q (10 ^ 6) = 32767 ∧ Monotone q) ∧
      ∃ is t', quantizeAll .w16 2 .nearest [0.5] = .ok is ∧
        quantizeTensor .w16 (.vector [0.5]) 2 .nearest = .ok t' ∧
        t'.data.elements = is.map .integer := by
  have hmode : RoundMode.nearest ≠ .unset := by decide
  obtain ⟨⟨q, hq, -, hmono, hrounds, -, -⟩, htensors⟩ := quantizeValue_rounds .w16 2 .nearest hmode
  obtain ⟨is, t', his, ht', -, helements⟩ := htensors (.vector [0.5]) [0.5] rfl
  have hhalf : quantizeValue .exact .w16 (-1 / 8) 2 .nearest = .ok 0 := by decide +kernel
  have hmillion : quantizeValue .exact .w16 (10 ^ 6) 2 .nearest = .ok 32767 := by decide +kernel
  have hzero : q (-1 / 8) = 0 := Except.ok.inj ((hq _).symm.trans hhalf)
  have hround := hrounds (-1 / 8)
  rw [hzero] at hround
  exact ⟨hmode, hhalf, hround (by decide) (by decide),
    ⟨q, hzero, Except.ok.inj ((hq _).symm.trans hmillion), hmono⟩, is, t', his, ht', helements⟩

end NeuralC
