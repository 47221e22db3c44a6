import Mathlib.Data.List.Infix
import NeuralC.Proofs.Work
import NeuralC.Size

/-!
# NeuralC.Proofs.Size

When a number of elements can be computed.  A shape is `Counted` when every product
of its leading dimensions is below the limit, and then `Shape.count` gives
the product of all of them (`count_of_counted`); otherwise it overflows
(`count_of_not_counted`).  A shape is `Bounded` when this holds of every run of
its dimensions, wherever it starts.  Without a dimension of 0 that is no more than
that the whole product is below the limit (`bounded_of_pos`).
-/

namespace NeuralC

/-- A size below the limit is computed. -/
theorem bounded_of_lt {n : Nat} (h : n < sizeLimit) : bounded n = .ok n := if_pos h

/-- A size from the limit on is not. -/
theorem bounded_of_le {n : Nat} (h : sizeLimit ≤ n) : bounded n = .error .overflow :=
  if_neg (Nat.not_lt.mpr h)

namespace Shape

/-! ## The number of elements -/

@[simp] theorem size_nil : Shape.size [] = 1 := rfl

@[simp] theorem size_cons (d : Nat) (shape : Shape) :
    Shape.size (d :: shape) = d * Shape.size shape := rfl

/-- The elements of an array of arrays. -/
theorem size_append (front back : Shape) :
    Shape.size (front ++ back) = Shape.size front * Shape.size back := by
  induction front with
  | nil => simp
  | cons d front ih => rw [List.cons_append, size_cons, size_cons, ih, Nat.mul_assoc]

/-- Without a dimension of 0 there are elements. -/
theorem size_pos {shape : Shape} (hpos : ∀ d ∈ shape, 0 < d) : 0 < Shape.size shape := by
  induction shape with
  | nil => exact Nat.one_pos
  | cons d shape ih =>
      obtain ⟨hd, hpos⟩ := List.forall_mem_cons.mp hpos
      exact Nat.mul_pos hd (ih hpos)

/-- Every product of leading dimensions is below the limit. -/
def Counted (shape : Shape) : Prop := ∀ front, front <+: shape → Shape.size front < sizeLimit

/-- Every product of consecutive dimensions is below the limit. -/
def Bounded (shape : Shape) : Prop := ∀ run, run <:+: shape → Shape.size run < sizeLimit

theorem Counted.size_lt {shape : Shape} (h : shape.Counted) : Shape.size shape < sizeLimit :=
  h shape List.prefix_rfl

/-- What holds of a run of dimensions holds of a run in it. -/
theorem Bounded.of_isInfix {shape run : Shape} (h : shape.Bounded) (hrun : run <:+: shape) :
    run.Bounded := fun part hpart => h part (hpart.trans hrun)

theorem bounded_nil : Shape.Bounded [] := by
  intro run hrun
  rw [List.infix_nil.mp hrun]
  decide

/-- Leading dimensions are a run, too. -/
theorem Bounded.counted {shape : Shape} (h : shape.Bounded) : shape.Counted :=
  fun front hfront => h front hfront.isInfix

/-- What is behind some dimensions can be counted. -/
theorem Bounded.counted_drop {shape : Shape} (h : shape.Bounded) (n : Nat) :
    Shape.Counted (shape.drop n) :=
  (h.of_isInfix (List.drop_suffix n shape).isInfix).counted

/-- Without a dimension of 0, no run of dimensions has a larger product than all of them. -/
theorem bounded_of_pos {shape : Shape} (hpos : ∀ d ∈ shape, 0 < d)
    (hsize : Shape.size shape < sizeLimit) : shape.Bounded := by
  rintro run ⟨front, back, rfl⟩
  have hfront : 0 < Shape.size front := size_pos fun d hd => hpos d (by simp [hd])
  have hback : 0 < Shape.size back := size_pos fun d hd => hpos d (by simp [hd])
  rw [size_append, size_append] at hsize
  calc Shape.size run
      ≤ Shape.size front * Shape.size run := Nat.le_mul_of_pos_left _ hfront
    _ ≤ Shape.size front * Shape.size run * Shape.size back := Nat.le_mul_of_pos_right _ hback
    _ < sizeLimit := hsize

/-! ## Counting -/

/-- The products that are taken from `n` on: `n` itself, and those that are taken from its product
with the first dimension. -/
theorem forall_prefix_cons {n d : Nat} {shape : Shape} :
    (∀ front, front <+: d :: shape → n * Shape.size front < sizeLimit) ↔
      n < sizeLimit ∧ ∀ front, front <+: shape → n * d * Shape.size front < sizeLimit := by
  constructor
  · intro h
    refine ⟨by simpa using h [] List.nil_prefix, fun front hfront => ?_⟩
    have hlonger := h (d :: front) ((List.prefix_cons_inj d).mpr hfront)
    rwa [size_cons, ← Nat.mul_assoc] at hlonger
  · rintro ⟨hn, h⟩ front hfront
    rcases List.prefix_cons_iff.mp hfront with rfl | ⟨rest, rfl, hrest⟩
    · rwa [size_nil, Nat.mul_one]
    · rw [size_cons, ← Nat.mul_assoc]
      exact h rest hrest

/-- Going on from a product of leading dimensions: the products of it with further ones. -/
theorem foldlM_bounded (shape : Shape) {n : Nat} (hn : n < sizeLimit) :
    (∀ front, front <+: shape → n * Shape.size front < sizeLimit) ∧
        shape.foldlM (fun n d => bounded (n * d)) n = .ok (n * Shape.size shape) ∨
      (¬∀ front, front <+: shape → n * Shape.size front < sizeLimit) ∧
        shape.foldlM (fun n d => bounded (n * d)) n = .error .overflow := by
  induction shape generalizing n with
  | nil =>
      refine .inl ⟨fun front hfront => ?_, ?_⟩
      · rw [List.prefix_nil.mp hfront, size_nil, Nat.mul_one]
        exact hn
      · rw [size_nil, Nat.mul_one]
        rfl
  | cons d shape ih =>
      rw [List.foldlM_cons, forall_prefix_cons, and_iff_right hn]
      rcases Nat.lt_or_ge (n * d) sizeLimit with hd | hd
      · rw [bounded_of_lt hd, size_cons, ← Nat.mul_assoc]
        exact ih hd
      · refine .inr ⟨fun h => ?_, by rw [bounded_of_le hd]; rfl⟩
        have hlt : n * d < sizeLimit := by simpa using h [] List.nil_prefix
        omega

/-- The number of elements of a shape that can be counted. -/
theorem count_of_counted {shape : Shape} (h : shape.Counted) :
    shape.count = .ok (Shape.size shape) := by
  have hone : ∀ front, front <+: shape → 1 * Shape.size front < sizeLimit := by
    simpa [Counted] using h
  rcases foldlM_bounded shape (n := 1) (by decide) with ⟨_, hok⟩ | ⟨hnot, _⟩
  · rwa [Nat.one_mul] at hok
  · exact absurd hone hnot

/-- A product that is too large on the way is an overflow, whatever comes behind it. -/
theorem count_of_not_counted {shape : Shape} (h : ¬shape.Counted) :
    shape.count = .error .overflow := by
  rcases foldlM_bounded shape (n := 1) (by decide) with ⟨hall, _⟩ | ⟨_, herror⟩
  · exact absurd (by simpa [Counted] using hall) h
  · exact herror

/-- A count is the number of elements, where it can be computed. -/
theorem count_eq_ok {shape : Shape} {n : Nat} :
    shape.count = .ok n ↔ shape.Counted ∧ n = Shape.size shape := by
  by_cases h : shape.Counted
  · simp [count_of_counted h, h, eq_comm]
  · simp [count_of_not_counted h, h]

/-- The only failure of a count is an overflow. -/
theorem count_eq_error {shape : Shape} {f : Failure} :
    shape.count = .error f ↔ ¬shape.Counted ∧ f = .overflow := by
  by_cases h : shape.Counted
  · simp [count_of_counted h, h]
  · simp [count_of_not_counted h, h, eq_comm]

/-- A number that was counted is a size. -/
theorem lt_of_countSample {shape : Shape} {n : Nat} (h : shape.countSample = .ok n) :
    n < sizeLimit := by
  obtain ⟨hcounted, rfl⟩ := count_eq_ok.mp h
  exact hcounted.size_lt

instance (shape : Shape) : Decidable shape.Counted :=
  match h : shape.count with
  | .ok _ => .isTrue (count_eq_ok.mp h).1
  | .error _ => .isFalse (count_eq_error.mp h).1

end Shape

end NeuralC
