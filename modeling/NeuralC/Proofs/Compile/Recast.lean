import NeuralC.FixedPoint
import NeuralC.Graph.Basic

/-!
# NeuralC.Proofs.Compile.Recast

Graphs that differ in the numbers of their weights only.  The outline of a layer
is what is left of it without these numbers; the shapes of the weights stay.
Conversion to fixed point keeps the outlines of all layers.
-/

namespace NeuralC

/-! ## Outlines -/

/-- The tensor without its elements. -/
def Tensor.outline (t : Tensor) : Tensor := { t with data := .f32 [] }

namespace LayerKind

/-- The layer without the elements of its weights. -/
def outline : LayerKind → LayerKind
  | conv1D c => conv1D { c with kernel := c.kernel.outline, bias := c.bias.map Tensor.outline }
  | conv2D c => conv2D { c with kernel := c.kernel.outline, bias := c.bias.map Tensor.outline }
  | dense d => dense { d with kernel := d.kernel.outline, bias := d.bias.map Tensor.outline }
  | batchNorm1D b => batchNorm1D { b with kernel := b.kernel.outline, bias := b.bias.outline }
  | batchNorm2D b => batchNorm2D { b with kernel := b.kernel.outline, bias := b.bias.outline }
  | kind => kind

def weightShapes (kind : LayerKind) : List (Role × Shape) :=
  kind.weights.map fun r => (r.1, r.2.shape)

theorem weightShapes_outline (kind : LayerKind) :
    kind.outline.weightShapes = kind.weightShapes := by
  cases kind with
  | conv1D c | conv2D c =>
      cases hb : c.bias <;> simp [outline, weightShapes, weights, hb, Tensor.outline]
  | dense d => cases hb : d.bias <;> simp [outline, weightShapes, weights, hb, Tensor.outline]
  | _ => rfl

/-- The shapes of the weights depend on the outline alone. -/
theorem weightShapes_congr {kind kind' : LayerKind} (h : kind.outline = kind'.outline) :
    kind.weightShapes = kind'.weightShapes := by
  rw [← weightShapes_outline, h, weightShapes_outline]

/-- A layer has one weight of a role at most. -/
theorem eq_of_mem_weightShapes {kind : LayerKind} {role : Role} {s s' : Shape}
    (hs : (role, s) ∈ kind.weightShapes) (hs' : (role, s') ∈ kind.weightShapes) : s = s' := by
  cases kind with
  | conv1D c | conv2D c =>
      cases hb : c.bias <;> simp [weightShapes, weights, hb] at hs hs' <;> grind
  | dense d => cases hb : d.bias <;> simp [weightShapes, weights, hb] at hs hs' <;> grind
  | batchNorm1D b | batchNorm2D b => simp [weightShapes, weights] at hs hs'; grind
  | _ => simp [weightShapes, weights] at hs

/-- A weight of the same shape leaves the outline as it is. -/
theorem outline_setWeight {kind : LayerKind} {role : Role} {t : Tensor}
    (ht : ∀ s, (role, s) ∈ kind.weightShapes → t.shape = s) :
    (kind.setWeight role t).outline = kind.outline := by
  cases kind with
  | conv1D c | conv2D c =>
      cases role <;> cases hb : c.bias <;>
        simp_all [setWeight, outline, weightShapes, weights, Tensor.outline]
  | dense d =>
      cases role <;> cases hb : d.bias <;>
        simp_all [setWeight, outline, weightShapes, weights, Tensor.outline]
  | batchNorm1D b | batchNorm2D b =>
      cases role <;> simp_all [setWeight, outline, weightShapes, weights, Tensor.outline]
  | _ => rfl

end LayerKind

def Node.outline (n : Node) : Node :=
  { n with layer := { n.layer with kind := n.layer.kind.outline } }

/-! ## Graphs -/

/-- `g'` is `g` with other numbers in the weights. -/
structure Graph.Recast (g g' : Graph) : Prop where
  order_eq : g'.order = g.order
  outline_eq : ∀ k, (g'.get? k).map Node.outline = (g.get? k).map Node.outline

namespace Graph.Recast

variable {g g₁ g' : Graph}

theorem refl (g : Graph) : g.Recast g := ⟨rfl, fun _ => rfl⟩

theorem trans (h₁ : g.Recast g₁) (h₂ : g₁.Recast g') : g.Recast g' :=
  ⟨h₂.order_eq.trans h₁.order_eq, fun k => (h₂.outline_eq k).trans (h₁.outline_eq k)⟩

/-- Each layer of the recast graph has the outline of one before. -/
theorem exists_get? (h : g.Recast g') {k : Handle} {n' : Node} (hn' : g'.get? k = some n') :
    ∃ n, g.get? k = some n ∧ n'.outline = n.outline := by
  have heq := h.outline_eq k
  rw [hn', Option.map_some] at heq
  obtain ⟨n, hn, hout⟩ := Option.map_eq_some_iff.mp heq.symm
  exact ⟨n, hn, hout.symm⟩

end Graph.Recast

/-- Quantization keeps the shape of a tensor. -/
theorem shape_quantizeTensor {w : IntegerWidth} {t t' : Tensor} {scale : Int} {mode : RoundMode}
    (h : quantizeTensor w t scale mode = .ok t') : t'.shape = t.shape := by
  rw [quantizeTensor] at h
  split at h
  · split at h
    · contradiction
    · injection h with h
      rw [← h]
  · injection h with h
    rw [h]

end NeuralC
