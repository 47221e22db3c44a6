import NeuralC.Proofs.C.Initializer
import NeuralC.Proofs.Compile.Allocate
import NeuralC.Proofs.Compile.Weights

/-!
# NeuralC.Proofs.Compile.Render

Rendering is safe for prepared layers.  A file of a layer asks for the rank of a
shape before it takes dimensions from it, takes parts of a shape within the bounds
that it has checked, and stores results through activations that can be written
inline.  The initializer of an array cuts the elements of a tensor into rows, and
never beyond their end when the tensor fits its shape (`safe_initializer`).  What
the files of the whole model look up, a prepared graph has.
-/

namespace NeuralC.C

open NeuralC.Graph

variable {large : Prop}

/-! ## Arrays -/

/-- A slice within the list is never out of range. -/
theorem safe_slice {α : Type} {xs : List α} {start stop : Nat} (hstart : start ≤ stop)
    (hstop : stop ≤ xs.length) : Safe large (slice xs start stop) := by
  rw [slice, if_pos ⟨hstart, hstop⟩]
  exact safe_ok _

/-- A slice is a run of the list. -/
theorem isInfix_of_slice {α : Type} {xs ys : List α} {start stop : Nat}
    (h : slice xs start stop = .ok ys) : ys <:+: xs := by
  rw [slice] at h
  split at h
  · injection h with h
    rw [← h]
    exact (List.drop_suffix _ _).isInfix.trans (List.take_prefix _ _).isInfix
  · contradiction

/-- As many literals as the shape has elements can be cut into rows, if their number can be
computed. -/
theorem safe_initializer {depth : Nat} {shape : Shape} {literals : List String}
    (hlen : literals.length = Shape.size shape) (hshape : ¬large → shape.Strided)
    (hwords : ∀ l ∈ literals, IsItem l.toList) : Safe large (initializer depth shape literals) := by
  by_cases hstrided : shape.Strided
  · cases shape with
    | nil => exact safe_ok _
    | cons outer inner =>
        obtain ⟨text, htext, _⟩ := exists_initializer depth (by simp) hstrided hlen hwords
        rw [htext]
        exact safe_ok text
  · rw [initializer_overflow depth hstrided hlen]
    exact safe_error.mpr (not_not.mp fun hl => hstrided (hshape hl))

/-- The arrays of weights that fit can be written. -/
theorem safe_weightArrays {n : Node} (hn : n.Sized) (hm : ¬large → n.Measured) :
    Safe large (weightArrays n.layer) := by
  refine safe_mapM fun r hr => ?_
  have hlen : (r.2.data.elements.map literal).length = r.2.shape.size := by
    rw [List.length_map, TensorData.length_elements]
    exact hn r hr
  refine safe_bind.mpr ⟨safe_initializer hlen (fun hl => ((hm hl).weights r hr).strided) ?_,
    fun _ _ => safe_ok _⟩
  exact isItem_of_mem_literals

/-! ## Files of layers -/

section Files

variable {l : BoundLayer}

theorem safe_fault {α : Type} {cause : RenderCause} (hc : cause.isInternal = false) :
    Safe large (l.fault cause : Except Failure α) := safe_error.mpr hc

theorem safe_inputShape {i : Nat} : Safe large (l.inputShape i) := by
  rw [BoundLayer.inputShape]
  split
  · exact safe_ok _
  · exact safe_fault rfl

/-- An input shape that is found is one of the layer's. -/
theorem mem_of_inputShape {i : Nat} {shape : Shape} (h : l.inputShape i = .ok shape) :
    shape ∈ l.node.layer.inputShapes := by
  rw [BoundLayer.inputShape] at h
  split at h
  · next hfound =>
    injection h with h
    exact h ▸ List.mem_of_getElem? hfound
  · contradiction

/-- Going on with the shape of an operand. -/
theorem safe_inputShape_bind {α : Type} {i : Nat} {f : Shape → Except Failure α}
    (hf : ∀ shape ∈ l.node.layer.inputShapes, Safe large (f shape)) :
    Safe large (l.inputShape i >>= f) :=
  safe_bind.mpr ⟨safe_inputShape, fun shape hshape => hf shape (mem_of_inputShape hshape)⟩

/-- Going on with the elements of an operand. -/
theorem safe_inputElements_bind {α : Type} {shape : Shape} {f : Nat → Except Failure α}
    (hm : ¬large → l.node.Measured) (hshape : shape ∈ l.node.layer.inputShapes)
    (hf : ∀ n, Safe large (f n)) : Safe large (shape.countSample >>= f) :=
  safe_bind.mpr ⟨safe_countSample fun hl => (hm hl).inputs shape hshape, fun n _ => hf n⟩

/-- Going on with the elements of the output. -/
theorem safe_outputElements_bind {α : Type} {f : Nat → Except Failure α}
    (hm : ¬large → l.node.Measured) (hf : ∀ n, Safe large (f n)) :
    Safe large (l.outputShape.countSample >>= f) :=
  safe_bind.mpr ⟨safe_countSample fun hl => (hm hl).outputShape, fun n _ => hf n⟩

/-- Going on with the shape of an operand of some rank. -/
theorem safe_inputOfRank_bind {α : Type} {i rank : Nat} {f : Shape → Except Failure α}
    (hf : ∀ shape, shape.length = rank → Safe large (f shape)) :
    Safe large (l.inputOfRank i rank >>= f) := by
  rw [BoundLayer.inputOfRank, bind_assoc]
  refine safe_inputShape_bind fun shape _ => ?_
  split
  · next hrank => exact hf shape hrank
  · exact safe_fault rfl

/-- Going on with an output shape of some rank. -/
theorem safe_outputOfRank_bind {α : Type} {rank : Nat} {f : Shape → Except Failure α}
    (hf : ∀ shape, shape.length = rank → Safe large (f shape)) :
    Safe large (l.outputOfRank rank >>= f) := by
  rw [BoundLayer.outputOfRank]
  split
  · next hrank => exact hf l.outputShape hrank
  · exact safe_fault rfl

/-- Going on with a dimension that the shape has. -/
theorem safe_dimension_bind {α : Type} {shape : Shape} {i : Nat} {f : Nat → Except Failure α}
    (hi : i < shape.length) (hf : ∀ n, Safe large (f n)) :
    Safe large (dimension shape i >>= f) := by
  rw [dimension, List.getElem?_eq_getElem hi]
  exact hf _

/-- An activation that is written in line can be stored. -/
theorem safe_store {f : Activation} {target scale : String} (hf : f.isInline = true) :
    Safe large (store l f target scale) := by
  cases f with
  | linear | relu | relu6 => exact safe_ok _
  | softmax | fire => contradiction

theorem safe_storeWeighted {f : Activation} {bias : Bool} {target : String}
    (hf : f.isInline = true) : Safe large (storeWeighted l f bias target) :=
  safe_bind.mpr ⟨safe_store hf, fun _ _ => safe_ok _⟩

theorem safe_dense {d : Dense} (hd : d.activation.isInline = true) : Safe large (dense l d) := by
  refine safe_inputOfRank_bind fun input hin => safe_bind.mpr ⟨?_, fun _ _ => ?_⟩
  · exact safe_dimension_bind (by omega) fun _ => safe_ok _
  · exact safe_bind.mpr ⟨safe_storeWeighted hd, fun _ _ => safe_ok _⟩

theorem safe_conv1D {c : Convolution} (hc : c.activation.isInline = true) :
    Safe large (conv1D l c) := by
  refine safe_inputOfRank_bind fun input hin => safe_outputOfRank_bind fun output hout => ?_
  refine safe_bind.mpr ⟨?_, fun _ _ => ?_⟩
  · exact safe_dimension_bind (by omega) fun _ => safe_dimension_bind (by omega) fun _ =>
      safe_dimension_bind (by omega) fun _ => safe_ok _
  · exact safe_bind.mpr ⟨safe_storeWeighted hc, fun _ _ => safe_ok _⟩

theorem safe_conv2D {c : Convolution} (hc : c.activation.isInline = true) :
    Safe large (conv2D l c) := by
  refine safe_inputOfRank_bind fun input hin => safe_outputOfRank_bind fun output hout => ?_
  refine safe_bind.mpr ⟨?_, fun _ _ => ?_⟩
  · exact safe_dimension_bind (by omega) fun _ => safe_dimension_bind (by omega) fun _ =>
      safe_dimension_bind (by omega) fun _ => safe_dimension_bind (by omega) fun _ =>
      safe_dimension_bind (by omega) fun _ => safe_ok _
  · exact safe_bind.mpr ⟨safe_storeWeighted hc, fun _ _ => safe_ok _⟩

theorem safe_batchNorm {b : BatchNorm} (hm : ¬large → l.node.Measured)
    (hb : b.activation.isInline = true) : Safe large (batchNorm l b) :=
  safe_inputShape_bind fun _ hshape => safe_inputElements_bind hm hshape fun _ =>
    safe_bind.mpr ⟨safe_storeWeighted hb, fun _ _ => safe_ok _⟩

theorem safe_pool1D {p : Pooling} {r : Reduction} (hp : p.activation.isInline = true) :
    Safe large (pool1D l p r) := by
  refine safe_inputOfRank_bind fun input hin => safe_outputOfRank_bind fun output hout => ?_
  refine safe_bind.mpr ⟨?_, fun _ _ => ?_⟩
  · exact safe_dimension_bind (by omega) fun _ => safe_dimension_bind (by omega) fun _ =>
      safe_dimension_bind (by omega) fun _ => safe_ok _
  · exact safe_bind.mpr ⟨safe_store hp, fun _ _ => safe_ok _⟩

theorem safe_pool2D {p : Pooling} {r : Reduction} (hp : p.activation.isInline = true) :
    Safe large (pool2D l p r) := by
  refine safe_inputOfRank_bind fun input hin => safe_outputOfRank_bind fun output hout => ?_
  refine safe_bind.mpr ⟨?_, fun _ _ => ?_⟩
  · exact safe_dimension_bind (by omega) fun _ => safe_dimension_bind (by omega) fun _ =>
      safe_dimension_bind (by omega) fun _ => safe_dimension_bind (by omega) fun _ =>
      safe_dimension_bind (by omega) fun _ => safe_ok _
  · exact safe_bind.mpr ⟨safe_store hp, fun _ _ => safe_ok _⟩

theorem safe_sum (hm : ¬large → l.node.Measured) : Safe large (sum l) := by
  refine safe_inputShape_bind fun input hinput => ?_
  split
  · exact safe_fault rfl
  · exact safe_inputElements_bind hm hinput fun _ => safe_ok _

theorem safe_activation {f : Activation} (hm : ¬large → l.node.Measured)
    (hf : f.isInline = true) : Safe large (activation l f) :=
  safe_inputShape_bind fun _ hshape => safe_inputElements_bind hm hshape fun _ =>
    safe_bind.mpr ⟨safe_store hf, fun _ _ => safe_ok _⟩

theorem safe_softmax (hm : ¬large → l.node.Measured) : Safe large (softmax l) :=
  safe_inputShape_bind fun _ hshape => safe_inputElements_bind hm hshape fun _ => safe_ok _

theorem safe_sampleNorm {mode : NormMode} (hm : ¬large → l.node.Measured) :
    Safe large (sampleNorm l mode) :=
  safe_inputShape_bind fun _ hshape => safe_inputElements_bind hm hshape fun _ => safe_ok _

theorem safe_flatten (hm : ¬large → l.node.Measured) : Safe large (flatten l) :=
  safe_inputShape_bind fun _ _ => safe_outputElements_bind hm fun _ => safe_ok _

theorem safe_add {f : Activation} (hm : ¬large → l.node.Measured) (hf : f.isInline = true) :
    Safe large (add l f) :=
  safe_outputElements_bind hm fun _ =>
    safe_bind.mpr ⟨safe_mapM fun _ _ => safe_inputShape, fun _ _ =>
      safe_bind.mpr ⟨safe_store hf, fun _ _ => safe_ok _⟩⟩

/-- The elements of a part of a shape. -/
theorem safe_count_slice {shape : Shape} {start stop : Nat} (hstart : start ≤ stop)
    (hstop : stop ≤ shape.length) (hshape : ¬large → shape.Bounded) :
    Safe large (slice shape start stop >>= fun part => Shape.count part) :=
  safe_bind.mpr ⟨safe_slice hstart hstop, fun _ hpart =>
    safe_count fun hl => ((hshape hl).of_isInfix (isInfix_of_slice hpart)).counted⟩

/-- The loop of a concatenated operand is made, if the axis is one of the shape's. -/
theorem safe_concatenated {axis i : Nat} (hm : ¬large → l.node.Measured)
    (haxis : axis < l.outputShape.length) : Safe large (concatenated l axis i) := by
  refine safe_inputShape_bind fun shape hshape => ?_
  dsimp only
  split
  · next hrank =>
      rw [← bind_assoc]
      exact safe_bind.mpr ⟨safe_count_slice (by omega) (Nat.le_refl _) fun hl =>
        (hm hl).inputs shape hshape, fun _ _ => safe_ok _⟩
  · exact safe_fault rfl

/-- The axis is checked before the shapes are cut there. -/
theorem safe_concatenate {axis : Int} (hm : ¬large → l.node.Measured) :
    Safe large (concatenate l axis) := by
  unfold concatenate
  dsimp only
  generalize (if axis < 0 then axis + (l.outputShape.length : Int) else axis) = axis
  split
  · exact safe_fault rfl
  · next haxis =>
      obtain ⟨hlow, hhigh⟩ := not_or.mp haxis
      rw [← bind_assoc]
      refine safe_bind.mpr ⟨safe_count_slice (by omega) (by omega) fun hl =>
        (hm hl).outputShape, fun _ _ => ?_⟩
      refine safe_bind.mpr ⟨safe_mapM fun _ _ => ?_, fun _ _ => safe_ok _⟩
      exact safe_concatenated hm (by omega)

theorem safe_permute {order : List Nat} : Safe large (permute l order) := by
  refine safe_inputShape_bind fun input _ => ?_
  split
  · exact safe_fault rfl
  · exact safe_ok _

theorem lt_of_mem_numbered {shape : Shape} {d : Nat} (hd : d ∈ (numbered shape).map (·.1)) :
    d < shape.length := by
  obtain ⟨x, hx, rfl⟩ := List.mem_map.mp hd
  obtain ⟨y, hy, rfl⟩ := List.mem_map.mp (List.mem_of_mem_drop hx)
  have := List.snd_lt_of_mem_zipIdx hy
  omega

/-- An index of an upsampled operand is made, if both shapes have the dimension. -/
theorem safe_upsampled {input output : Shape} {d : Nat} (hlen : input.length = output.length)
    (hd : d < output.length) : Safe large (upsampled input output d) := by
  rw [upsampled]
  split
  · refine safe_bind.mpr ⟨?_, fun _ _ => safe_ok _⟩
    exact safe_dimension_bind hd fun _ => safe_dimension_bind (by omega) fun _ => safe_ok _
  · exact safe_ok _

theorem safe_upsample : Safe large (upsample l) := by
  refine safe_inputShape_bind fun input _ => ?_
  dsimp only
  split
  · exact safe_fault rfl
  · next hrank =>
      have hlen : input.length = l.outputShape.length := not_not.mp (not_or.mp hrank).2
      refine safe_bind.mpr ⟨safe_mapM fun d hd => ?_, fun _ _ => safe_ok _⟩
      exact safe_upsampled hlen (lt_of_mem_numbered hd)

end Files

/-! ## Layers -/

/-- The activation of a layer is in line if the layer's kind is. -/
theorem isInline_of_fusable {kind : LayerKind} {f : Activation} (hk : kind.Inline)
    (hf : kind.fusableActivation? = some f) : f.isInline = true := by
  have hactivation : kind.activation? = some f := by
    cases kind with
    | activation a => contradiction
    | _ => exact hf
  rcases hk f hactivation with hinline | rfl
  · exact hinline
  · contradiction

/-- There is code for every layer that has a family of templates. -/
theorem safe_layerFile {l : BoundLayer} {family : String} (hm : ¬large → l.node.Measured)
    (hk : l.node.layer.kind.Inline) (hf : family? l.node.layer = .ok (some family)) :
    Safe large (layerFile l) := by
  unfold layerFile
  unfold family? at hf
  cases hkind : l.node.layer.kind with
  | dense d => exact safe_dense (isInline_of_fusable hk (by rw [hkind]; rfl))
  | conv1D c => exact safe_conv1D (isInline_of_fusable hk (by rw [hkind]; rfl))
  | conv2D c => exact safe_conv2D (isInline_of_fusable hk (by rw [hkind]; rfl))
  | maxPool1D p | avgPool1D p => exact safe_pool1D (isInline_of_fusable hk (by rw [hkind]; rfl))
  | maxPool2D p | avgPool2D p => exact safe_pool2D (isInline_of_fusable hk (by rw [hkind]; rfl))
  | batchNorm1D b | batchNorm2D b =>
      exact safe_batchNorm hm (isInline_of_fusable hk (by rw [hkind]; rfl))
  | activation f =>
      rw [hkind] at hk
      cases f with
      | linear | relu | relu6 => exact safe_activation hm rfl
      | softmax => exact safe_softmax hm
      | fire =>
          rcases hk .fire rfl with hinline | hsoftmax
          · contradiction
          · contradiction
  | add f => exact safe_add hm (isInline_of_fusable hk (by rw [hkind]; rfl))
  | flatten => exact safe_flatten hm
  | sum dims => exact safe_sum hm
  | concatenate axis => exact safe_concatenate hm
  | slice ranges => exact safe_inputShape_bind fun _ _ => safe_ok _
  | sampleNorm mode => exact safe_sampleNorm hm
  | permute order => exact safe_permute
  | upsample scale => exact safe_upsample
  | input | dropout _ | identity | zeroPadding1D _ | zeroPadding2D _ =>
      rw [hkind] at hf
      cases hf

/-- A layer with a record has one for any template. -/
theorem exists_record {n : Node} (hn : n.Recorded) (t : Template) :
    ∃ q, t.recordOf n = .ok q := by
  obtain ⟨q, hq⟩ := Option.isSome_iff_exists.mp hn
  rw [Template.recordOf, hq]
  exact ⟨q, rfl⟩

theorem safe_recordOf {n : Node} (hn : n.Recorded) (t : Template) : Safe large (t.recordOf n) := by
  obtain ⟨q, hq⟩ := exists_record hn t
  rw [hq]
  exact safe_ok q

/-- A layer of the scope is bound with its record and its operands. -/
theorem exists_bind {s : Scope} {h : Handle} {n : Node} (hg : s.graph.Prepared)
    (hs : s.layer = some h) (hn : s.graph.get? h = some n) (t : Template) :
    ∃ q operands, BoundLayer.bind t s = .ok ⟨t, n, q, operands⟩ := by
  obtain ⟨q, hq⟩ := exists_record (hg.prepared h n hn).recorded t
  obtain ⟨operands, ho⟩ := exists_mapM_eq_ok (f := s.graph.node) fun p hp => by
    obtain ⟨m, hm⟩ := contains_iff.mp (hg.pred_live hn hp)
    exact ⟨m, node_eq_ok.mpr hm⟩
  refine ⟨q, operands, ?_⟩
  simp only [BoundLayer.bind, hs, Option.bind_some, hn]
  exact bind_eq_ok.mpr ⟨q, hq, bind_eq_ok.mpr ⟨operands, ho, rfl⟩⟩

/-- The files of a prepared layer. -/
theorem safe_code_layer {s : Scope} {h : Handle} {n : Node} {family : String}
    (hg : s.graph.Prepared) (hm : ¬large → s.graph.All Node.Measured) (hs : s.layer = some h)
    (hn : s.graph.get? h = some n) (hf : family? n.layer = .ok (some family)) :
    Safe large (code (.layerHeader family) s) ∧ Safe large (code (.layerSource family) s) ∧
      Safe large (code (.layerWeights family) s) := by
  have hbind : ∀ t, ∃ q operands, BoundLayer.bind t s = .ok ⟨t, n, q, operands⟩ :=
    exists_bind hg hs hn
  refine ⟨?_, ?_, ?_⟩
  · obtain ⟨q, operands, hl⟩ := hbind (.layerHeader family)
    rw [code, hl]
    exact safe_ok _
  · obtain ⟨q, operands, hl⟩ := hbind (.layerSource family)
    rw [code, hl]
    refine safe_bind.mpr ⟨safe_ok _, fun l hl => ?_⟩
    cases hl
    exact safe_bind.mpr ⟨safe_layerFile (fun hl => hm hl h n hn) (hg.prepared h n hn).inline hf,
      fun _ _ => safe_ok _⟩
  · obtain ⟨q, operands, hl⟩ := hbind (.layerWeights family)
    rw [code, hl]
    exact safe_ok _

/-! ## Files of the model -/

section Model

variable {s : Scope} (hg : s.graph.Prepared) (hm : ¬large → s.graph.All Node.Measured)

include hg

theorem safe_computed : Safe large (computed s.graph) :=
  safe_bind.mpr ⟨safe_nodes hg.toLinked, fun _ _ => safe_ok _⟩

omit hg in
/-- The computed layers are layers of the graph. -/
theorem exists_get?_of_computed {ns : List Node} (hns : computed s.graph = .ok ns) :
    ∀ n ∈ ns, ∃ h, s.graph.get? h = some n := by
  intro n hn
  obtain ⟨all, hall, heq⟩ := bind_eq_ok.mp hns
  cases heq
  obtain ⟨h, hh⟩ := exists_of_mem_mapM hall (List.mem_of_mem_filter hn)
  exact ⟨h, node_eq_ok.mp hh⟩

include hm in
theorem safe_defines : Safe large (defines s) := by
  refine safe_bind.mpr ⟨safe_nodes hg.toLinked, fun _ _ => ?_⟩
  refine safe_bind.mpr ⟨safe_computed hg, fun layers hlayers => ?_⟩
  refine safe_bind.mpr ⟨safe_mapM fun n hn => ?_, fun _ _ => safe_ok _⟩
  obtain ⟨h, hh⟩ := exists_get?_of_computed hlayers n hn
  exact safe_bind.mpr ⟨safe_countSample fun hl => (hm hl h n hh).outputShape, fun _ _ => safe_ok _⟩

theorem safe_endpoints (t : Template) : Safe large (endpoints t s.graph) := by
  obtain ⟨i, hi⟩ := Option.isSome_iff_exists.mp (List.isSome_head?.mpr hg.nonempty)
  obtain ⟨o, ho⟩ := hg.exists_output?
  have hlive : ∀ {h}, h ∈ s.graph.order → Safe large (s.graph.node h) := fun hh =>
    safe_node (hg.mem_order.mp hh)
  simp only [endpoints, input?, hi, ho]
  refine safe_bind.mpr ⟨hlive (List.mem_of_head? hi), fun input hinput => ?_⟩
  refine safe_bind.mpr ⟨hlive (List.mem_of_getLast? ho), fun last _ => ?_⟩
  split
  · exact safe_error.mpr rfl
  · have hrecorded := (hg.prepared i input (node_eq_ok.mp hinput)).recorded
    exact safe_bind.mpr ⟨safe_recordOf hrecorded t, fun _ _ => safe_ok _⟩

theorem safe_modelHeader (t : Template) : Safe large (modelHeader t s) :=
  safe_bind.mpr ⟨safe_endpoints hg t, fun _ _ =>
    safe_bind.mpr ⟨safe_computed hg, fun _ _ => safe_ok _⟩⟩

/-- An operand that is in the graph can be named in a call. -/
theorem safe_operand {t : Template} {n : Node} {q : QuantRecord} {i : Nat} {p : Handle}
    (hp : s.graph.contains p = true) (hn : ¬large → n.Measured) :
    Safe large (operand t s n q i p) := by
  refine safe_bind.mpr ⟨safe_node hp, fun m hm => ?_⟩
  refine safe_bind.mpr ⟨safe_recordOf (hg.prepared p m (node_eq_ok.mp hm)).recorded t, ?_⟩
  intro r _
  dsimp only
  split
  · exact safe_ok _
  · refine safe_bind.mpr ⟨safe_countSample fun hl => ?_, fun _ _ => safe_ok _⟩
    rw [List.getD_eq_getElem?_getD]
    cases hshape : n.layer.inputShapes[i]? with
    | none => exact Shape.bounded_nil
    | some shape => exact (hn hl).inputs shape (List.mem_of_getElem? hshape)

include hm

/-- The call of a layer can be written. -/
theorem safe_call {t : Template} {h : Handle} {n : Node} (hn : s.graph.get? h = some n) :
    Safe large (call t s h n) := by
  refine safe_bind.mpr ⟨safe_recordOf (hg.prepared h n hn).recorded t, fun q _ => ?_⟩
  refine safe_bind.mpr ⟨safe_mapM fun x hx => ?_, fun _ _ => safe_ok _⟩
  have hp : x.1 ∈ n.preds := (List.mem_zipIdx' hx).2 ▸ List.getElem_mem _
  exact safe_operand hg (hg.pred_live hn hp) fun hl => hm hl h n hn

theorem safe_calls {t : Template} {hs : List Handle} (hhs : ∀ h ∈ hs, h ∈ s.graph.order) :
    Safe large (calls t s hs) := by
  induction hs with
  | nil => exact safe_ok []
  | cons h hs ih =>
      obtain ⟨hh, hhs⟩ := List.forall_mem_cons.mp hhs
      refine safe_bind.mpr ⟨safe_node (hg.mem_order.mp hh), fun n hn => ?_⟩
      have hrest : ∀ code : Code, Safe large (calls t s hs >>= fun rest => pure (code ++ rest)) :=
        fun code => safe_bind.mpr ⟨ih hhs, fun _ _ => safe_ok _⟩
      dsimp only
      split
      · exact hrest []
      · exact safe_bind.mpr ⟨safe_call hg hm (node_eq_ok.mp hn), fun code _ => hrest code⟩

variable (hplan : s.plan.Within s.graph)

include hplan

/-- The model's source is made. -/
theorem safe_model (t : Template) : Safe large (model t s) := by
  refine safe_bind.mpr ⟨safe_endpoints hg t, fun _ _ => ?_⟩
  refine safe_bind.mpr ⟨safe_computed hg, fun _ _ => ?_⟩
  refine safe_bind.mpr ⟨safe_mapM fun x hx => ?_, fun _ _ => ?_⟩
  · have hx : x.1 ∈ s.plan.pools := (List.mem_zipIdx' hx).2 ▸ List.getElem_mem _
    exact safe_bind.mpr ⟨safe_mapM fun h hh => safe_node (hplan x.1 hx h hh), fun _ _ => safe_ok _⟩
  · exact safe_bind.mpr ⟨safe_calls hg hm fun _ hh => hh, fun _ _ => safe_ok _⟩

/-- The files of a model of prepared layers, for a plan of its outputs. -/
theorem safe_code_model :
    Safe large (code .defines s) ∧ Safe large (code .numbers s) ∧ Safe large (code .modelHeader s) ∧
      Safe large (code .model s) :=
  ⟨safe_defines hg hm, safe_ok _, safe_modelHeader hg _, safe_model hg hm hplan _⟩

end Model

end NeuralC.C
