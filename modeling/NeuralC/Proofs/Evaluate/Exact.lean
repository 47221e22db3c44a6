import Mathlib.Algebra.Order.Field.Basic
import NeuralC.Evaluate
import NeuralC.Proofs.Work

/-!
# NeuralC.Proofs.Evaluate.Exact

Evaluation in the numbers of an ordered field.  The exponential, the values of
tensor elements and the greatest number of no numbers at all are left open:
nothing that is proved about simplification depends on them.

Clipping activations compose as their table says (`activate_compose`), and a
product with a padding zero adds nothing to a sum (`products_filterMap`).
-/

namespace NeuralC

variable {K : Type} [Field K] [LinearOrder K]

def Arithmetic.exact (exp : K → K) (value : Element → K) (lowest : K) : Arithmetic K where
  zero := 0
  neutral := 0
  add x y := x + y
  sub x y := x - y
  mul x y := x * y
  div x y := x / y
  exp := exp
  ofNat n := n
  ofElement := value
  relu x := max x 0
  relu6 x := min (max x 0) 6
  maximum xs := xs.max?.getD lowest

/-- Tensor elements that are whole numbers, as they are. -/
def Element.whole : Element → K
  | .integer v => v
  | .float _ => 0

namespace Evaluate

variable {exp : K → K} {value : Element → K} {lowest : K}

/-! ## Clipping -/

/-- The clipping of an activation, on one number. -/
def clip (f : Activation) (x : K) : K :=
  match f with
  | .relu => max x 0
  | .relu6 => min (max x 0) 6
  | _ => x

/-- The activations that work on each number alone. -/
def Pointwise (f : Activation) : Prop := f = .linear ∨ f = .relu ∨ f = .relu6

/-- A clipping activation works on every element by itself. -/
theorem activate_of_pointwise {l : Layer} {f : Activation} {xs : List K} (hf : Pointwise f) :
    activate (.exact exp value lowest) l f xs = .ok (xs.map (clip f)) := by
  rcases hf with rfl | rfl | rfl
  · have hid : clip .linear = (id : K → K) := rfl
    rw [hid, List.map_id]
    rfl
  · rfl
  · rfl

/-- The table of composed activations is right for a clipping that comes last. -/
theorem clip_compose [IsStrictOrderedRing K] {inner outer f : Activation}
    (ho : outer = .relu ∨ outer = .relu6) (hc : inner.compose outer = some f) :
    Pointwise inner ∧ Pointwise f ∧ ∀ x : K, clip outer (clip inner x) = clip f x := by
  have h6 : (0 : K) ≤ 6 := by norm_num
  rcases ho with rfl | rfl <;> cases inner <;> simp [Activation.compose] at hc <;> subst hc <;>
    simp [Pointwise, clip, h6]

section Fused

variable [IsStrictOrderedRing K] {inner outer f : Activation}
  (ho : outer = .relu ∨ outer = .relu6) (hc : inner.compose outer = some f)

include ho hc

/-- Applying the composed activation is applying one after the other. -/
theorem activate_compose {l l' : Layer} {xs : List K} :
    activate (.exact exp value lowest) l' f xs =
      (activate (.exact exp value lowest) l inner xs).map (List.map (clip outer)) := by
  obtain ⟨hinner, hf, hclip⟩ := clip_compose (K := K) ho hc
  rw [activate_of_pointwise hinner, activate_of_pointwise hf, Except.map, List.map_map]
  congr 2
  funext x
  exact (hclip x).symm

/-- A layer with a composed activation gives what the layer and a clipping behind it
give. -/
theorem layer_setFusableActivation {l : Layer} (hl : l.kind.fusableActivation? = some inner)
    (sample : List K) (operands : List (List K)) :
    layer (.exact exp value lowest) sample
        { l with kind := l.kind.setFusableActivation f } operands =
      (layer (.exact exp value lowest) sample l operands).map (List.map (clip outer)) := by
  obtain ⟨name, inputs, outputs, type, kind⟩ := l
  have hact : ∀ {xs : List K}, activate (.exact exp value lowest)
      ⟨name, inputs, outputs, type, kind.setFusableActivation f⟩ f xs =
      (activate (.exact exp value lowest) ⟨name, inputs, outputs, type, kind⟩ inner xs).map
        (List.map (clip outer)) := activate_compose ho hc
  cases kind with
  | dense d =>
      injection hl with hl
      subst hl
      exact bind_eq_map fun _ => hact
  | conv1D c =>
      injection hl with hl
      subst hl
      exact bind_eq_map fun _ => bind_eq_map fun _ => bind_eq_map fun _ => hact
  | maxPool1D p =>
      injection hl with hl
      subst hl
      exact bind_eq_map fun _ => bind_eq_map fun _ => bind_eq_map fun _ => hact
  | avgPool1D p =>
      injection hl with hl
      subst hl
      exact bind_eq_map fun _ => bind_eq_map fun _ => bind_eq_map fun _ => hact
  | batchNorm1D b =>
      injection hl with hl
      subst hl
      exact bind_eq_map fun _ => hact
  | batchNorm2D b =>
      injection hl with hl
      subst hl
      exact bind_eq_map fun _ => hact
  | add g =>
      injection hl with hl
      subst hl
      exact hact
  -- What is not evaluated is refused with the activation as without.
  | conv2D c => rfl
  | maxPool2D p => rfl
  | avgPool2D p => rfl
  | _ => contradiction

end Fused

/-! ## Sums of products -/

/-- Exact sums do not depend on where they begin. -/
theorem sumFrom_exact (x : K) (xs : List K) :
    (Arithmetic.exact exp value lowest).sumFrom x xs = x + xs.sum := by
  rw [Arithmetic.sumFrom]
  induction xs generalizing x with
  | nil => simp
  | cons y ys ih =>
      rw [List.foldl_cons, ih, List.sum_cons, ← add_assoc]
      rfl

theorem element_eq_ok {α : Type} {xs : List α} {i : Nat} {x : α} :
    element xs i = .ok x ↔ xs[i]? = some x := by
  rw [element]
  cases xs[i]? <;> simp [present]

/-- The indices of a product, with the input where it comes from. -/
def retrace (origin : Nat → Option Nat) (t : Nat × Nat) : Option (Nat × Nat) :=
  (origin t.2).map (t.1, ·)

/-- Products with zeros add nothing: a sum stays the same when they are left out and the
other inputs are taken from where they come from. -/
theorem products_filterMap {kernel : Tensor} {xs ys : List K} {origin : Nat → Option Nat}
    (hxs : ∀ i y, xs[i]? = some y →
      (∃ j, origin i = some j ∧ ys[j]? = some y) ∨ (origin i = none ∧ y = 0))
    {terms : List (Nat × Nat)} {ps : List K}
    (hp : products (.exact exp value lowest) kernel xs terms = .ok ps) :
    ∃ qs, products (.exact exp value lowest) kernel ys (terms.filterMap (retrace origin)) = .ok qs ∧
      qs.sum = ps.sum := by
  induction terms generalizing ps with
  | nil => exact ⟨ps, hp, rfl⟩
  | cons t terms ih =>
      rw [products, List.mapM_cons, ← products] at hp
      obtain ⟨p, hp1, hp⟩ := bind_eq_ok.mp hp
      obtain ⟨ps', hps', hp⟩ := bind_eq_ok.mp hp
      obtain ⟨x, hx, hp1⟩ := bind_eq_ok.mp hp1
      obtain ⟨y, hy, hp1⟩ := bind_eq_ok.mp hp1
      injection hp with hp
      injection hp1 with hp1
      subst hp hp1
      obtain ⟨qs, hqs, hsum⟩ := ih hps'
      rcases hxs t.2 y (element_eq_ok.mp hy) with ⟨j, hj, hyj⟩ | ⟨hj, rfl⟩
      · have ht : retrace origin t = some (t.1, j) := by rw [retrace, hj, Option.map_some]
        refine ⟨x * y :: qs, ?_, ?_⟩
        · rw [List.filterMap_cons_some ht, products, List.mapM_cons, ← products]
          refine bind_eq_ok.mpr ⟨x * y, bind_eq_ok.mpr ⟨x, hx, ?_⟩, bind_eq_ok.mpr ⟨qs, hqs, rfl⟩⟩
          exact bind_eq_ok.mpr ⟨y, element_eq_ok.mpr hyj, rfl⟩
        · rw [List.sum_cons, List.sum_cons, hsum]
          rfl
      · have ht : retrace origin t = none := by rw [retrace, hj, Option.map_none]
        refine ⟨qs, ?_, ?_⟩
        · rw [List.filterMap_cons_none ht]
          exact hqs
        · rw [List.sum_cons, hsum]
          show ps'.sum = x * 0 + ps'.sum
          rw [mul_zero, zero_add]

end Evaluate

end NeuralC
