import NeuralC.Proofs.Compile.Annotate
import NeuralC.Proofs.Compile.Recast
import NeuralC.Proofs.Model.Build

/-!
# NeuralC.Proofs.Compile.Weights

Weights on their way through a compilation.  A tensor `Fits` when it has as many
elements as its shape says.  Nothing in the type of a tensor says so; a line that
gives a weight is refused unless it fits, what is folded from running statistics
fits, and converting the elements of a tensor changes neither their number nor its
shape.  So the weights fit when the initializers of their arrays are written.

`Prepared` is what layers have come to be when code is generated for them, and
conversion keeps it (`ensures_quantize`).
-/

namespace NeuralC

/-! ## Tensors -/

/-- The tensor has as many elements as its shape says. -/
def Tensor.Fits (t : Tensor) : Prop := t.length = Shape.size t.shape

def Node.Sized (n : Node) : Prop := ∀ r ∈ n.layer.weights, r.2.Fits

theorem Tensor.fits_vector (values : List Float32) : (Tensor.vector values).Fits := by
  simp [Fits, vector, length, TensorData.length, Shape.size]

/-- Quantization keeps the number of values. -/
theorem length_quantizeAll {w : IntegerWidth} {scale : Int} {mode : RoundMode}
    {xs : List Float32} {is : List Int} (h : quantizeAll w scale mode xs = .ok is) :
    is.length = xs.length := by
  induction xs generalizing is with
  | nil =>
      injection h with h
      rw [← h]
      rfl
  | cons x xs ih =>
      rw [quantizeAll] at h
      split at h
      · contradiction
      · split at h
        · contradiction
        · next hrest =>
            injection h with h
            rw [← h, List.length_cons, List.length_cons, ih hrest]

theorem length_quantizeTensor {w : IntegerWidth} {t t' : Tensor} {scale : Int}
    {mode : RoundMode} (h : quantizeTensor w t scale mode = .ok t') : t'.length = t.length := by
  rw [quantizeTensor] at h
  split at h
  · next values hdata =>
      split at h
      · contradiction
      · next is his =>
          injection h with h
          have hlen := length_quantizeAll his
          rw [← h, Tensor.length, Tensor.length, hdata]
          cases w <;> simp [IntegerWidth.store, TensorData.length, hlen]
  · injection h with h
    rw [h]

/-- A tensor that fits its shape fits it after quantization. -/
theorem Tensor.Fits.quantizeTensor {w : IntegerWidth} {t t' : Tensor} {scale : Int}
    {mode : RoundMode} (ht : t.Fits) (h : quantizeTensor w t scale mode = .ok t') : t'.Fits := by
  rw [Fits, length_quantizeTensor h, shape_quantizeTensor h]
  exact ht

/-! ## Descriptions -/

theorem Layer.weights_of_isInput {l : Layer} (hl : l.isInput = true) : l.weights = [] := by
  rw [isInput] at hl
  split at hl
  · next hk =>
      rw [weights, hk]
      rfl
  · contradiction

namespace Model

/-- A weight line that was counted fits its shape. -/
theorem fits_of_counted {s : Statement} {w : WeightLine} (h : s.counted = .ok (.weight w)) :
    w.tensor.Fits := by
  cases s with
  | layer l => cases h
  | weight v =>
      obtain ⟨v', hv', heq⟩ := map_eq_ok.mp h
      cases heq
      obtain ⟨rfl, _, hlength⟩ := WeightLine.counted_eq_ok.mp hv'
      exact hlength

/-- Every weight that a description gives fits. -/
theorem fits_of_mem_weightsOf {text : String} {w : WeightLine} (hw : w ∈ weightsOf text) :
    w.tensor.Fits := by
  obtain ⟨⟨raw, line⟩, _, hgiven⟩ := List.mem_filterMap.mp hw
  rw [readLine] at hgiven
  split at hgiven
  · contradiction
  · split at hgiven
    · next s hs =>
        cases hcounted : s.counted with
        | error f =>
            rw [hcounted] at hgiven
            contradiction
        | ok s' =>
            rw [hcounted] at hgiven
            cases s' with
            | layer l => contradiction
            | weight w' =>
                injection hgiven with hgiven
                exact hgiven ▸ fits_of_counted hcounted
    · contradiction

namespace LayerLine

variable {d : LayerLine} {weights : List WeightLine} (hw : ∀ w ∈ weights, w.tensor.Fits)

include hw

theorem fits_of_weight? {layer role : String} {w : WeightLine}
    (h : weight? weights layer role = some w) : w.tensor.Fits :=
  hw w (List.mem_of_find?_eq_some h)

/-- A required weight fits its shape. -/
theorem fits_of_require {role : String} {w : WeightLine} (h : d.require weights role = .ok w) :
    w.tensor.Fits := by
  rw [require] at h
  split at h
  · next hfound =>
      injection h with h
      exact h ▸ fits_of_weight? hw hfound
  · contradiction

theorem fits_bias {t : Tensor} {layer : String}
    (h : (weight? weights layer "bias").map (·.tensor) = some t) : t.Fits := by
  obtain ⟨w, hfound, rfl⟩ := Option.map_eq_some_iff.mp h
  exact fits_of_weight? hw hfound

/-- The weights of a convolution fit their shapes. -/
theorem fits_convolution {rank : Nat} {c : Convolution} (h : d.convolution weights rank = .ok c) :
    c.kernel.Fits ∧ ∀ t, c.bias = some t → t.Fits := by
  obtain ⟨_, _, h⟩ := bind_eq_ok.mp h
  obtain ⟨kernel, hkernel, h⟩ := bind_eq_ok.mp h
  iterate 6 obtain ⟨_, _, h⟩ := bind_eq_ok.mp h
  injection h with h
  subst h
  exact ⟨fits_of_require hw hkernel, fun t ht => fits_bias hw ht⟩

theorem fits_dense {e : Dense} (h : d.dense weights = .ok e) :
    e.kernel.Fits ∧ ∀ t, e.bias = some t → t.Fits := by
  iterate 3 obtain ⟨_, _, h⟩ := bind_eq_ok.mp h
  obtain ⟨kernel, hkernel, h⟩ := bind_eq_ok.mp h
  injection h with h
  subst h
  exact ⟨fits_of_require hw hkernel, fun t ht => fits_bias hw ht⟩

theorem fits_batchNorm {b : BatchNorm} (h : d.batchNorm weights = .ok b) :
    b.kernel.Fits ∧ b.bias.Fits := by
  iterate 2 obtain ⟨_, _, h⟩ := bind_eq_ok.mp h
  split at h
  · next kernel hkernel =>
      split at h
      · contradiction
      · obtain ⟨bias, hbias, h⟩ := bind_eq_ok.mp h
        injection h with h
        subst h
        exact ⟨fits_of_weight? hw hkernel, fits_of_require hw hbias⟩
  · iterate 3 obtain ⟨_, _, h⟩ := bind_eq_ok.mp h
    split at h
    · next hfold =>
        injection h with h
        subst h
        rw [BatchNorm.ofStatistics?] at hfold
        split at hfold
        · contradiction
        · injection hfold with hfold
          subst hfold
          exact ⟨Tensor.fits_vector _, Tensor.fits_vector _⟩
    · contradiction

omit hw in
theorem fits_of_mem {kernel : Tensor} {bias : Option Tensor} (hk : kernel.Fits)
    (hb : ∀ t, bias = some t → t.Fits) :
    ∀ r ∈ (Role.kernel, kernel) :: (bias.map (Role.bias, ·)).toList, r.2.Fits := by
  intro r hr
  rcases List.mem_cons.mp hr with rfl | hr
  · exact hk
  · obtain ⟨t, ht, rfl⟩ := Option.map_eq_some_iff.mp (Option.mem_toList.mp hr)
    exact hb t ht

/-- The weights of a declared layer fit. -/
theorem fits_of_layerKind {kind : LayerKind} (h : d.layerKind weights = .ok kind) :
    ∀ r ∈ kind.weights, r.2.Fits := by
  unfold layerKind at h
  split at h
  case h_1 | h_2 =>
    obtain ⟨c, hc, h⟩ := bind_eq_ok.mp h
    cases h
    exact fits_of_mem (fits_convolution hw hc).1 (fits_convolution hw hc).2
  case h_3 =>
    obtain ⟨e, he, h⟩ := bind_eq_ok.mp h
    cases h
    exact fits_of_mem (fits_dense hw he).1 (fits_dense hw he).2
  case h_8 | h_9 =>
    obtain ⟨b, hb, h⟩ := bind_eq_ok.mp h
    cases h
    have hfits := fits_batchNorm hw hb
    simpa [LayerKind.weights] using hfits
  -- The other kinds own no weights.
  all_goals
    repeat obtain ⟨_, _, h⟩ := bind_eq_ok.mp h
  all_goals
    cases h
    try simp [LayerKind.weights]

end LayerLine

/-- The weights of a description fit. -/
theorem sized_of_parse {text : String} {g : Graph} (h : parse text = .ok g) :
    g.All Node.Sized := by
  intro k n hn
  obtain ⟨_, hbuilt⟩ := built_of_parse h
  obtain ⟨l, _, hd⟩ := hbuilt.exists_line hn
  by_cases hk : k = 0
  · rw [Node.Sized, Layer.weights_of_isInput (hd.input hk).1]
    simp
  · exact LayerLine.fits_of_layerKind (fun w hw => fits_of_mem_weightsOf hw) (hd.kind hk)

/-- A layer of a description has as many input shapes as operands. -/
theorem supplied_of_parse {text : String} {g : Graph} (h : parse text = .ok g) :
    g.All Node.Supplied := by
  intro k n hn hkind
  obtain ⟨_, hbuilt⟩ := built_of_parse h
  obtain ⟨l, _, hd⟩ := hbuilt.exists_line hn
  by_cases hk : k = 0
  · have hinput := (hd.input hk).1
    rw [Layer.isInput, hkind] at hinput
    contradiction
  · have hlength := congrArg List.length (hd.inputShapes hk)
    rw [List.length_map, List.length_map] at hlength
    exact Nat.le_of_eq hlength

end Model

/-! ## Layers that code is generated for -/

/-- The activations that are written where a result is stored. -/
def Activation.isInline : Activation → Bool
  | linear | relu | relu6 => true
  | _ => false

/-- An activation of the layer is written where a result is stored, unless the layer is a
softmax of its own. -/
def LayerKind.Inline (kind : LayerKind) : Prop :=
  ∀ f, kind.activation? = some f → f.isInline = true ∨ kind = .activation .softmax

/-- The layer has a record, its weights fit, its activation can be written, and there are
templates for it. -/
structure Node.Prepared (n : Node) : Prop where
  recorded : n.Recorded
  sized : n.Sized
  inline : n.layer.kind.Inline
  family : ∃ family, C.family? n.layer = .ok family

structure Graph.Prepared (g : Graph) : Prop extends Framed g where
  prepared : g.All Node.Prepared

/-! ## Validation -/

namespace Validate

open NeuralC.Graph

variable {Large : Graph → Prop} {large : Prop}

/-- A single shape is counted for a layer that flattens. -/
theorem safe_countAll {shapes : List Shape} (hlength : shapes.length ≤ 1)
    (hshapes : ¬large → ∀ shape ∈ shapes, shape.Bounded) : Safe large (countAll shapes) := by
  rcases shapes with _ | ⟨shape, _ | ⟨next, rest⟩⟩
  · exact safe_ok 1
  · refine safe_bind.mpr ⟨safe_bind.mpr ⟨safe_countSample fun hl => hshapes hl shape (by simp),
      fun count hcount => ?_⟩, fun _ _ => safe_ok _⟩
    rw [Nat.one_mul, bounded_of_lt (Shape.lt_of_countSample hcount)]
    exact safe_ok count
  · simp at hlength

theorem safe_flattenFault? {n : Node} (hs : n.Supplied) (hm : ¬large → n.Measured) :
    Safe large (flattenFault? n) := by
  rw [flattenFault?]
  split
  · next hkind =>
    split
    · exact safe_ok _
    · next hone =>
      split
      · exact safe_ok _
      · have hlength : n.layer.inputShapes.length ≤ 1 := (hs hkind).trans (by omega)
        exact safe_bind.mpr ⟨safe_countAll hlength fun hl => (hm hl).inputs, fun _ _ => safe_ok _⟩
  · exact safe_ok _

/-- A rule that is safe can be checked. -/
theorem safe_checkRules {n : Node}
    {rs : List (Rule × (Node → Except Failure (Option ValidationCause)))}
    (hrs : ∀ r ∈ rs, Safe large (r.2 n)) : Safe large (checkRules n rs) := by
  induction rs with
  | nil => exact safe_ok ()
  | cons r rs ih =>
      obtain ⟨hr, hrs⟩ := List.forall_mem_cons.mp hrs
      refine safe_bind.mpr ⟨hr, fun cause? _ => ?_⟩
      cases cause? with
      | none => exact ih hrs
      | some cause => exact safe_throw.mpr rfl

/-- Every rule is safe on a node with its weights and within the limit. -/
theorem safe_checkNode {n : Node} (hs : n.Supplied) (hm : ¬large → n.Measured) :
    Safe large (checkNode n) := by
  refine safe_checkRules fun r hr => ?_
  simp only [rules, List.mem_cons, List.not_mem_nil, or_false] at hr
  rcases hr with rfl | rfl | rfl | rfl | rfl
  case inr.inr.inl => exact safe_flattenFault? hs hm
  all_goals exact safe_ok _

/-- A node that passes finds no fault under any rule. -/
theorem checkRules_eq_ok {n : Node}
    {rs : List (Rule × (Node → Except Failure (Option ValidationCause)))}
    (h : checkRules n rs = .ok ()) : ∀ r ∈ rs, r.2 n = .ok none := by
  induction rs with
  | nil => simp
  | cons r rs ih =>
      obtain ⟨cause?, hcause, hrest⟩ := bind_eq_ok.mp h
      cases cause? with
      | none => exact List.forall_mem_cons.mpr ⟨hcause, ih hrest⟩
      | some cause => contradiction

theorem inline_of_activationFault? {n : Node} (h : activationFault? n = none) :
    n.layer.kind.Inline := by
  intro f hf
  rw [activationFault?, hf] at h
  cases f with
  | linear | relu | relu6 => exact .inl rfl
  | softmax =>
      cases hk : n.layer.kind with
      | activation a =>
          rw [hk] at hf
          injection hf with hf
          exact .inr (by rw [hf])
      | _ =>
          rw [hk] at h
          contradiction
  | fire => contradiction

/-- A node that passes has an activation that can be written in line. -/
theorem inline_of_checkNode {n : Node} (h : checkNode n = .ok ()) : n.layer.kind.Inline := by
  have hfirst := checkRules_eq_ok h (.activationLegality, fun n => .ok (activationFault? n))
    (by simp [rules])
  exact inline_of_activationFault? (Except.ok.inj hfirst)

theorem safe_checkAll {g : Graph} {hs : List Handle}
    (hhs : ∀ h ∈ hs, ∃ n, g.get? h = some n ∧ Safe large (checkNode n)) :
    Safe large (checkAll g hs) := by
  induction hs with
  | nil => exact safe_ok ()
  | cons h hs ih =>
      obtain ⟨⟨n, hn, hcheck⟩, hhs⟩ := List.forall_mem_cons.mp hhs
      simp only [checkAll, node_eq_ok.mpr hn]
      split
      · next f hf => exact safe_error.mpr (hcheck f hf)
      · exact ih hhs

/-- In a graph that passes every node passes. -/
theorem checkNode_of_checkAll {g : Graph} {hs : List Handle} (h : checkAll g hs = .ok ())
    {k : Handle} {n : Node} (hk : k ∈ hs) (hn : g.get? k = some n) : checkNode n = .ok () := by
  induction hs with
  | nil => contradiction
  | cons h' hs ih =>
      rw [checkAll] at h
      split at h
      · contradiction
      · next m hm =>
          split at h
          · contradiction
          · next hcheck =>
              rcases List.mem_cons.mp hk with rfl | hk
              · rw [node_eq_ok, hn] at hm
                cases hm
                exact hcheck
              · exact ih h hk

/-- Validation is safe where shapes that cannot be counted are tolerated, and accepts no activation
that cannot be written. -/
theorem ensures_validate {w : Workspace} (hg : w.graph.Linked)
    (hsupplied : w.graph.All Node.Supplied)
    (hmeasured : ¬Large w.graph → w.graph.All Node.Measured) :
    Work.Ensures Large validate w fun _ v => v.graph = w.graph ∧
      w.graph.All fun n => n.layer.kind.Inline := by
  simp only [validate, Work.ensures_bind, Work.ensures_graph, Work.ensures_attempt,
    Work.ensures_note, true_and]
  refine ⟨safe_checkAll fun h hh => ?_, fun _ hall k n hn => ?_⟩
  · obtain ⟨n, hn⟩ := hg.exists_get? hh
    exact ⟨n, hn, safe_checkNode (hsupplied h n hn) fun hl => hmeasured hl h n hn⟩
  · exact inline_of_checkNode (checkNode_of_checkAll hall (hg.mem_of_get? hn) hn)

end Validate

/-! ## Conversion -/

/-- The weights of a layer with one of them replaced. -/
theorem LayerKind.mem_weights_setWeight {kind : LayerKind} {role : Role} {t : Tensor}
    {r : Role × Tensor} (hr : r ∈ (kind.setWeight role t).weights) :
    r.2 = t ∨ r ∈ kind.weights := by
  cases kind with
  | conv1D c | conv2D c =>
      cases role <;> cases hb : c.bias <;> simp [setWeight, weights, hb] at hr ⊢ <;> grind
  | dense d =>
      cases role <;> cases hb : d.bias <;> simp [setWeight, weights, hb] at hr ⊢ <;> grind
  | batchNorm1D b | batchNorm2D b =>
      cases role <;> simp [setWeight, weights] at hr ⊢ <;> grind
  | _ => exact .inr hr

def Node.setWeight (role : Role) (t : Tensor) (n : Node) : Node :=
  { n with layer := { n.layer with kind := n.layer.kind.setWeight role t } }

/-- Other weights do not change the activation. -/
theorem LayerKind.Inline.setWeight {kind : LayerKind} (hk : kind.Inline) (role : Role)
    (t : Tensor) : (kind.setWeight role t).Inline := by
  cases kind with
  | conv1D _ | conv2D _ | dense _ | batchNorm1D _ | batchNorm2D _ =>
      intro f hf
      rcases hk f (by cases role <;> exact hf) with hinline | hsoftmax
      · exact .inl hinline
      · contradiction
  | _ => exact hk

theorem Node.family?_setWeight (n : Node) (role : Role) (t : Tensor) :
    C.family? (n.setWeight role t).layer = C.family? n.layer := by
  obtain ⟨⟨_, _, _, _, kind⟩, _, _, _⟩ := n
  cases kind <;> rfl

theorem Node.isInput_setWeight (n : Node) (role : Role) (t : Tensor) :
    (n.setWeight role t).layer.isInput = n.layer.isInput := by
  obtain ⟨⟨_, _, _, _, kind⟩, _, _, _⟩ := n
  cases kind <;> rfl

/-- A node stays prepared under weights that fit. -/
theorem Node.Prepared.setWeight {n : Node} (hn : n.Prepared) (role : Role) {t : Tensor}
    (ht : t.Fits) : (n.setWeight role t).Prepared where
  recorded := hn.recorded
  sized := fun r hr => by
    rcases LayerKind.mem_weights_setWeight hr with hr | hr
    · exact hr ▸ ht
    · exact hn.sized r hr
  inline := hn.inline.setWeight role t
  family := by
    rw [n.family?_setWeight]
    exact hn.family

theorem Graph.Prepared.setWeight {g : Graph} (hg : g.Prepared) (h : Handle) (role : Role)
    {t : Tensor} (ht : t.Fits) : (g.modify h (Node.setWeight role t)).Prepared where
  toFramed := hg.toFramed.modify (fun _ => ⟨rfl, rfl⟩) fun n => ⟨rfl, n.isInput_setWeight role t⟩
  prepared := hg.prepared.modify fun _ hn => hn.setWeight role ht

/-- A weight of the same shape in place of another. -/
theorem Graph.Recast.setWeight {g : Graph} {h : Handle} {role : Role} {t : Tensor}
    (ht : ∀ n, g.get? h = some n → ∀ s, (role, s) ∈ n.layer.kind.weightShapes → t.shape = s) :
    g.Recast (g.modify h (Node.setWeight role t)) where
  order_eq := rfl
  outline_eq := by
    intro k
    rw [Graph.get?_modify]
    split
    · next hk =>
      subst hk
      cases hn : g.get? h with
      | none => rfl
      | some n =>
          have hout := LayerKind.outline_setWeight (ht n hn)
          simp [Node.outline, Node.setWeight, hout]
    · rfl

namespace Quantize

open NeuralC.Graph

variable {Large : Graph → Prop}

/-- Converting weights that fit keeps the layers prepared, and their outlines. -/
theorem ensures_convertWeights {h : Handle} {name : String} {c : WeightConversion}
    {rs : List (Role × Tensor)} {w : Workspace} (hg : w.graph.Prepared)
    (hrs : ∀ r ∈ rs, r.2.Fits)
    (hshapes : ∀ n, w.graph.get? h = some n → ∀ r ∈ rs, ∀ s,
      (r.1, s) ∈ n.layer.kind.weightShapes → r.2.shape = s) :
    Work.Ensures Large (convertWeights h name c rs) w fun _ v =>
      v.graph.Prepared ∧ w.graph.Recast v.graph := by
  induction rs generalizing w with
  | nil => exact Work.ensures_pure.mpr ⟨hg, .refl _⟩
  | cons r rs ih =>
      obtain ⟨role, t⟩ := r
      obtain ⟨ht, hrs⟩ := List.forall_mem_cons.mp hrs
      rw [convertWeights]
      split
      · exact Work.ensures_report.mpr rfl
      · next t' ht' =>
          have hstep : w.graph.Recast (w.graph.modify h (Node.setWeight role t')) := by
            refine .setWeight fun n hn s hs => ?_
            rw [shape_quantizeTensor ht']
            exact hshapes n hn (role, t) List.mem_cons_self s hs
          simp only [Work.ensures_bind, Work.ensures_graph, Work.ensures_setGraph,
            Work.ensures_count]
          refine Work.Ensures.mono (ih (hg.setWeight h role (ht.quantizeTensor ht')) hrs
            fun n' hn' r hr s hs => ?_) fun _ v hv => ⟨hv.1, hstep.trans hv.2⟩
          obtain ⟨n, hn, hout⟩ := hstep.exists_get? hn'
          rw [LayerKind.weightShapes_congr (congrArg (·.layer.kind) hout)] at hs
          exact hshapes n hn r (List.mem_cons_of_mem _ hr) s hs

/-- A record that allows no conversion is reported, not an internal fault. -/
theorem isInternal_of_ofRecord {q : QuantRecord} {cause : QuantizationCause}
    (h : WeightConversion.ofRecord q = .error cause) : cause.isInternal = false := by
  rw [WeightConversion.ofRecord] at h
  split at h
  · cases h
    rfl
  · split at h
    · cases h
      rfl
    · split at h
      · cases h
        rfl
      · contradiction

/-- A prepared graph stays prepared when a layer is quantized. -/
theorem ensures_quantizeLayer {w : Workspace} {h : Handle} (hg : w.graph.Prepared)
    (hh : h ∈ w.graph.order) :
    Work.Ensures Large (quantizeLayer h) w fun _ v =>
      v.graph.Prepared ∧ w.graph.Recast v.graph := by
  obtain ⟨n, hn⟩ := hg.exists_get? hh
  have hp := hg.prepared h n hn
  obtain ⟨q, hq⟩ := Option.isSome_iff_exists.mp hp.recorded
  simp only [quantizeLayer, Work.ensures_bind, Work.ensures_node hn, hq, Work.ensures_recordType]
  split
  · split
    · next hc => exact Work.ensures_report.mpr (isInternal_of_ofRecord hc)
    · simp only [Work.ensures_bind, Work.ensures_note]
      refine ensures_convertWeights hg hp.sized fun n' hn' r hr s hs => ?_
      obtain rfl : n = n' := Option.some.inj (hn.symm.trans hn')
      exact LayerKind.eq_of_mem_weightShapes (List.mem_map_of_mem hr) hs
  · exact Work.ensures_pure.mpr ⟨hg, .refl _⟩

/-- A prepared graph stays prepared when all its layers are quantized. -/
theorem ensures_quantizeAll {w : Workspace} {hs : List Handle} (hg : w.graph.Prepared)
    (hhs : ∀ h ∈ hs, h ∈ w.graph.order) :
    Work.Ensures Large (quantizeAll hs) w fun _ v =>
      v.graph.Prepared ∧ w.graph.Recast v.graph := by
  induction hs generalizing w with
  | nil => exact Work.ensures_pure.mpr ⟨hg, .refl _⟩
  | cons h hs ih =>
      obtain ⟨hh, hhs⟩ := List.forall_mem_cons.mp hhs
      refine Work.ensures_bind.mpr ((ensures_quantizeLayer hg hh).mono fun _ v hv => ?_)
      refine Work.Ensures.mono (ih hv.1 fun k hk => hv.2.order_eq ▸ hhs k hk) fun _ u hu => ?_
      exact ⟨hu.1, hv.2.trans hu.2⟩

/-- Conversion is safe, and keeps the layers prepared and their outlines. -/
theorem ensures_quantize {w : Workspace} (hg : w.graph.Prepared) :
    Work.Ensures Large quantize w fun _ v => v.graph.Prepared ∧ w.graph.Recast v.graph := by
  simp only [quantize, Work.ensures_bind, Work.ensures_graph]
  exact ensures_quantizeAll hg fun _ hh => hh

end Quantize

end NeuralC
