import NeuralC.Proofs.Compile.Weights
import NeuralC.Proofs.Graph.Deletions

/-!
# NeuralC.Proofs.Compile.Conversion

What conversion to fixed point does to a graph.  `Node.Quantized` says what
becomes of one node: nothing, unless its record is one of integers and some
weight has elements; then its weights are converted one by one, and those that
are integers already stay.

A node is converted in one way only, and converting it again changes nothing
(`Quantized.unique`, `Quantized.settled`).  Converting all nodes does this to
each of them and takes down the number types of their records
(`quantizeAll_eq_ok`); so a second conversion goes through and finds nothing
left to do (`quantize_converts`).
-/

namespace NeuralC

/-! ## Tensors -/

def TensorData.integerBits? : TensorData → Option Nat
  | f32 _ => none
  | i8 _ => some 8
  | i16 _ => some 16
  | i32 _ => some 32

theorem Tensor.isInteger_eq (t : Tensor) : t.isInteger = t.data.integerBits?.isSome := by
  rw [isInteger]
  cases t.data <;> rfl

/-- Integers stored at a width are found at that width. -/
theorem IntegerWidth.integerBits?_store (w : IntegerWidth) (is : List Int) :
    (w.store is).integerBits? = some w.bits := by
  cases w <;> rfl

theorem IntegerWidth.bits_of_ofBits {bits : Nat} {w : IntegerWidth} (h : ofBits bits = .ok w) :
    w.bits = bits := by
  rw [ofBits] at h
  split_ifs at h with h8 h16 h32
  · cases h
    exact h8.symm
  · cases h
    exact h16.symm
  · cases h
    exact h32.symm

section Tensors

variable {w : IntegerWidth} {t t' : Tensor} {scale : Int} {mode : RoundMode}

/-- A tensor of integers is left as it is. -/
theorem quantizeTensor_of_isInteger (ht : t.isInteger = true) :
    quantizeTensor w t scale mode = .ok t := by
  rw [Tensor.isInteger] at ht
  rw [quantizeTensor]
  split
  · next hdata =>
    rw [hdata] at ht
    contradiction
  · rfl

/-- Any other is stored at the width of the conversion. -/
theorem integerBits?_of_quantizeTensor (ht : t.isInteger = false)
    (h : quantizeTensor w t scale mode = .ok t') : t'.data.integerBits? = some w.bits := by
  rw [Tensor.isInteger] at ht
  rw [quantizeTensor] at h
  split at h
  · split at h
    · contradiction
    · injection h with h
      rw [← h]
      exact w.integerBits?_store _
  · next hdata =>
    split at ht
    · next values hvalues => exact absurd hvalues (hdata values)
    · contradiction

/-- What is converted is a tensor of integers then. -/
theorem isInteger_of_quantizeTensor (h : quantizeTensor w t scale mode = .ok t') :
    t'.isInteger = true := by
  cases ht : t.isInteger with
  | true =>
      rw [quantizeTensor_of_isInteger ht] at h
      injection h with h
      rwa [← h]
  | false => rw [Tensor.isInteger_eq, integerBits?_of_quantizeTensor ht h, Option.isSome_some]

end Tensors

/-! ## Weights -/

/-- The weight `r'` is `r` converted. -/
structure WeightConversion.Converts (c : WeightConversion) (r r' : Role × Tensor) : Prop where
  role_eq : r'.1 = r.1
  tensor_eq : quantizeTensor c.width r.2 (c.scaleOf r.1) c.round = .ok r'.2

namespace WeightConversion.Converts

variable {c : WeightConversion} {r r₁ r₂ : Role × Tensor}

/-- A conversion has one result. -/
theorem unique (h₁ : c.Converts r r₁) (h₂ : c.Converts r r₂) : r₁ = r₂ := by
  have htensor := h₁.tensor_eq.symm.trans h₂.tensor_eq
  injection htensor with htensor
  exact Prod.ext (h₁.role_eq.trans h₂.role_eq.symm) htensor

/-- What holds integers is converted already. -/
theorem of_isInteger (hr : r.2.isInteger = true) : c.Converts r r :=
  ⟨rfl, quantizeTensor_of_isInteger hr⟩

/-- A converted weight is not changed again. -/
theorem settled (h : c.Converts r r₁) : c.Converts r₁ r₁ :=
  of_isInteger (isInteger_of_quantizeTensor h.tensor_eq)

end WeightConversion.Converts

namespace LayerKind

/-- The layer with other tensors in place of weights that it owns. -/
def setWeights (rs : List (Role × Tensor)) (kind : LayerKind) : LayerKind :=
  rs.foldl (fun kind r => kind.setWeight r.1 r.2) kind

/-- Weights for all roles of the layer replace all its weights. -/
theorem weights_setWeights {kind : LayerKind} {rs : List (Role × Tensor)}
    (hrs : rs.map (·.1) = kind.weights.map (·.1)) : (kind.setWeights rs).weights = rs := by
  -- A layer owns a kernel and a bias at most.
  rcases rs with _ | ⟨⟨role, t⟩, _ | ⟨⟨role', t'⟩, rest⟩⟩
  · cases kind <;> simp_all [weights, setWeights]
  · cases kind with
    | conv1D c | conv2D c => cases hb : c.bias <;> simp_all [weights, setWeights, setWeight]
    | dense d => cases hb : d.bias <;> simp_all [weights, setWeights, setWeight]
    | _ => simp [weights] at hrs
  · cases kind with
    | conv1D c | conv2D c => cases hb : c.bias <;> simp_all [weights, setWeights, setWeight]
    | dense d => cases hb : d.bias <;> simp_all [weights, setWeights, setWeight]
    | batchNorm1D b | batchNorm2D b => simp_all [weights, setWeights, setWeight]
    | _ => simp [weights] at hrs

theorem setWeights_weights (kind : LayerKind) : kind.setWeights kind.weights = kind := by
  cases kind with
  | conv1D c | conv2D c =>
      obtain ⟨_, _, _, _, _, _, _, bias⟩ := c
      cases bias <;> rfl
  | dense d =>
      obtain ⟨_, _, _, bias⟩ := d
      cases bias <;> rfl
  | _ => rfl

/-- Weights of the declared shapes keep the outline of a layer. -/
theorem outline_setWeights {kind : LayerKind} {rs : List (Role × Tensor)}
    (hrs : ∀ r ∈ rs, ∀ s, (r.1, s) ∈ kind.weightShapes → r.2.shape = s) :
    (kind.setWeights rs).outline = kind.outline := by
  induction rs generalizing kind with
  | nil => rfl
  | cons r rs ih =>
      obtain ⟨hr, hrs⟩ := List.forall_mem_cons.mp hrs
      have hout := outline_setWeight hr
      rw [← weightShapes_congr hout] at hrs
      exact (ih hrs).trans hout

end LayerKind

section Weights

variable {c : WeightConversion} {kind : LayerKind} {rs rs' : List (Role × Tensor)}

/-- A conversion keeps the roles of the weights. -/
theorem WeightConversion.Converts.map_role (h : List.Forall₂ c.Converts rs rs') :
    rs'.map (·.1) = rs.map (·.1) := by
  induction h with
  | nil => rfl
  | cons hr _ ih => rw [List.map_cons, List.map_cons, hr.role_eq, ih]

/-- A conversion empties no weight and fills none. -/
theorem WeightConversion.Converts.any_nonempty (h : List.Forall₂ c.Converts rs rs') :
    rs'.any (fun r => !r.2.isEmpty) = rs.any (fun r => !r.2.isEmpty) := by
  induction h with
  | nil => rfl
  | cons hr _ ih =>
      rw [List.any_cons, List.any_cons, ih, Tensor.isEmpty, Tensor.isEmpty,
        length_quantizeTensor hr.tensor_eq]

/-- A conversion keeps the outline of the layer. -/
theorem WeightConversion.Converts.outline_eq (h : List.Forall₂ c.Converts kind.weights rs) :
    (kind.setWeights rs).outline = kind.outline := by
  refine LayerKind.outline_setWeights fun r' hr' s hs => ?_
  obtain ⟨r, hr, hconverts⟩ := exists_mem_of_forall₂ h.flip hr'
  rw [shape_quantizeTensor hconverts.tensor_eq]
  rw [hconverts.role_eq] at hs
  exact LayerKind.eq_of_mem_weightShapes (List.mem_map_of_mem hr) hs

end Weights

/-! ## Nodes -/

def Node.setWeights (rs : List (Role × Tensor)) (n : Node) : Node :=
  { n with layer := { n.layer with kind := n.layer.kind.setWeights rs } }

theorem Node.setWeights_weights (n : Node) : n.setWeights n.layer.weights = n := by
  rw [setWeights, Layer.weights, LayerKind.setWeights_weights]

/-- The converted weights are the weights of the layer afterwards. -/
theorem Node.weights_setWeights {n : Node} {c : WeightConversion} {rs : List (Role × Tensor)}
    (h : List.Forall₂ c.Converts n.layer.weights rs) : (n.setWeights rs).layer.weights = rs :=
  LayerKind.weights_setWeights (WeightConversion.Converts.map_role h)

/-- What conversion makes of a node. -/
inductive Node.Quantized (n : Node) : Node → Prop
  | kept {q : QuantRecord} (hq : n.quant = some q)
      (hkeep : ¬(q.isInteger = true ∧ n.layer.hasWeights = true)) : Quantized n n
  | converted {q : QuantRecord} {c : WeightConversion} {rs : List (Role × Tensor)}
      (hq : n.quant = some q) (hconvert : q.isInteger = true ∧ n.layer.hasWeights = true)
      (hc : WeightConversion.ofRecord q = .ok c)
      (hrs : List.Forall₂ c.Converts n.layer.weights rs) : Quantized n (n.setWeights rs)

namespace Node.Quantized

variable {n n' n₁ n₂ : Node}

/-- Conversion keeps all of a layer but its weights. -/
theorem outline_eq (h : n.Quantized n') : n'.outline = n.outline := by
  cases h with
  | kept => rfl
  | converted _ _ _ hrs =>
      have hkind := WeightConversion.Converts.outline_eq hrs
      simp [outline, setWeights, hkind]

/-- A node is converted in one way. -/
theorem unique (h₁ : n.Quantized n₁) (h₂ : n.Quantized n₂) : n₁ = n₂ := by
  cases h₁ with
  | kept hq hkeep =>
      cases h₂ with
      | kept => rfl
      | converted hq' hconvert =>
          rw [hq, Option.some.injEq] at hq'
          exact absurd (hq' ▸ hconvert) hkeep
  | converted hq hconvert hc hrs =>
      cases h₂ with
      | kept hq' hkeep =>
          rw [hq, Option.some.injEq] at hq'
          exact absurd (hq' ▸ hconvert) hkeep
      | converted hq' _ hc' hrs' =>
          rw [hq, Option.some.injEq] at hq'
          subst hq'
          rw [hc, Except.ok.injEq] at hc'
          subst hc'
          rw [List.right_unique_forall₂' (fun _ _ _ ha hb => ha.unique hb) hrs hrs']

/-- A converted node is not changed again. -/
theorem settled (h : n.Quantized n') : n'.Quantized n' := by
  cases h with
  | kept hq hkeep => exact .kept hq hkeep
  | @converted q c rs hq hconvert hc hrs =>
      have hweights : (n.setWeights rs).layer.weights = rs := weights_setWeights hrs
      have hsome : (n.setWeights rs).layer.hasWeights = true := by
        rw [Layer.hasWeights, hweights]
        exact (WeightConversion.Converts.any_nonempty hrs).trans hconvert.2
      have hall : List.Forall₂ c.Converts rs rs := by
        refine List.forall₂_same.mpr fun r hr => ?_
        obtain ⟨r₀, hr₀⟩ := exists_of_forall₂_of_mem hrs hr
        exact hr₀.settled
      have hagain : (n.setWeights rs).Quantized _ :=
        .converted hq ⟨hconvert.1, hsome⟩ hc (hweights.symm ▸ hall)
      rwa [setWeights_weights] at hagain

end Node.Quantized

/-- What becomes of a weight of the node `n` with the record `q`.  Its role, its shape and the
number of its elements stay; floats of a layer that is converted are stored as integers of the
width of the record, and every other tensor stays as it is. -/
structure Node.Recodes (n : Node) (q : QuantRecord) (r r' : Role × Tensor) : Prop where
  role_eq : r'.1 = r.1
  shape_eq : r'.2.shape = r.2.shape
  length_eq : r'.2.length = r.2.length
  stored : q.isInteger = true → n.layer.hasWeights = true → r.2.isInteger = false →
    r'.2.data.integerBits? = some q.width
  kept : ¬(q.isInteger = true ∧ n.layer.hasWeights = true ∧ r.2.isInteger = false) → r'.2 = r.2

/-- The width of a conversion is that of the record. -/
theorem WeightConversion.bits_of_ofRecord {q : QuantRecord} {c : WeightConversion}
    (h : ofRecord q = .ok c) : c.width.bits = q.width := by
  rw [ofRecord] at h
  split at h
  · contradiction
  · split at h
    · contradiction
    · split at h
      · contradiction
      · next hwidth =>
        cases h
        exact IntegerWidth.bits_of_ofBits hwidth

/-- Each weight of a converted layer is at the width of its record, or was of integers before. -/
theorem Node.Quantized.recodes {n n' : Node} (h : n.Quantized n') :
    ∃ q, n.quant = some q ∧ List.Forall₂ (n.Recodes q) n.layer.weights n'.layer.weights := by
  cases h with
  | kept hq hkeep =>
      refine ⟨_, hq, List.forall₂_same.mpr fun r _ => ⟨rfl, rfl, rfl, ?_, fun _ => rfl⟩⟩
      exact fun hint hsome => absurd ⟨hint, hsome⟩ hkeep
  | converted hq hconvert hc hrs =>
      refine ⟨_, hq, ?_⟩
      rw [Node.weights_setWeights hrs]
      refine hrs.imp fun r r' hr => ⟨hr.role_eq, shape_quantizeTensor hr.tensor_eq,
        length_quantizeTensor hr.tensor_eq, fun _ _ hfloat => ?_, fun hkeep => ?_⟩
      · rw [integerBits?_of_quantizeTensor hfloat hr.tensor_eq,
          WeightConversion.bits_of_ofRecord hc]
      · have hint : r.2.isInteger = true := by simpa [hconvert] using hkeep
        rw [hr.unique (.of_isInteger hint)]

/-! ## Graphs -/

namespace Graph

theorem modify_modify (g : Graph) (h : Handle) (f f' : Node → Node) :
    (g.modify h f).modify h f' = g.modify h (f' ∘ f) := by
  simp [modify, List.modify_modify_eq]

theorem modify_congr {g : Graph} {h : Handle} {f f' : Node → Node}
    (hf : ∀ n, g.get? h = some n → f n = f' n) : g.modify h f = g.modify h f' := by
  refine eq_of_get? rfl ((fresh_modify g h f).trans (fresh_modify g h f').symm) fun k => ?_
  rw [get?_modify, get?_modify]
  split
  · next hk =>
    subst hk
    cases hn : g.get? h with
    | none => rfl
    | some n => rw [Option.map_some, Option.map_some, hf n hn]
  · rfl

theorem modify_eq_self {g : Graph} {h : Handle} {f : Node → Node}
    (hf : ∀ n, g.get? h = some n → f n = n) : g.modify h f = g := by
  have hid : g.modify h f = g.modify h id := modify_congr hf
  rw [hid, modify, Option.map_id, List.modify_id]

end Graph

/-! ## Number types -/

namespace Session

/-- A recorded type is noted, and none is forgotten. -/
theorem mem_types_recordType {s : Session} {t u : NumberType} :
    u ∈ (s.recordType t).types.toList ↔ u = t ∨ u ∈ s.types.toList := by
  rw [recordType]
  split
  · next hin =>
    rw [NumberTypes.contains, decide_eq_true_eq] at hin
    refine ⟨.inr, ?_⟩
    rintro (rfl | hu)
    · exact hin
    · exact hu
  · exact NumberTypes.mem_place

/-- A type that is known is not noted again. -/
theorem recordType_of_mem {s : Session} {t : NumberType} (ht : t ∈ s.types.toList) :
    s.recordType t = s := by
  rw [recordType, if_pos]
  rwa [NumberTypes.contains, decide_eq_true_eq]

end Session

/-- The number type of a layer that has a record. -/
def Graph.typeOf? (g : Graph) (k : Handle) : Option NumberType :=
  ((g.get? k).bind (·.quant)).map (·.numberType)

theorem Graph.typeOf?_of_quant {g : Graph} {k : Handle} {n : Node} {q : QuantRecord}
    (hn : g.get? k = some n) (hq : n.quant = some q) : g.typeOf? k = some q.numberType := by
  rw [typeOf?, hn, Option.bind_some, hq, Option.map_some]

theorem Graph.typeOf?_eq_some {g : Graph} {k : Handle} {t : NumberType} :
    g.typeOf? k = some t ↔ ∃ n q, g.get? k = some n ∧ n.quant = some q ∧ q.numberType = t := by
  simp only [typeOf?, Option.map_eq_some_iff, Option.bind_eq_some_iff]
  constructor
  · rintro ⟨q, ⟨n, hn, hq⟩, ht⟩
    exact ⟨n, q, hn, hq, ht⟩
  · rintro ⟨n, q, hn, hq, ht⟩
    exact ⟨q, ⟨n, hn, hq⟩, ht⟩

/-- Conversion keeps the number type of each layer. -/
theorem Graph.Recast.typeOf?_eq {g g' : Graph} (h : g.Recast g') (k : Handle) :
    g'.typeOf? k = g.typeOf? k := by
  have hquant := congrArg (Option.bind · Node.quant) (h.outline_eq k)
  simp only [Option.bind_map] at hquant
  exact congrArg (Option.map QuantRecord.numberType) hquant

namespace Quantize

open NeuralC.Graph

/-! ## Steps -/

/-- Weights that are converted stand in the node afterwards, and nothing else is changed. -/
theorem convertWeights_eq_ok {k : Handle} {name : String} {c : WeightConversion}
    {rs : List (Role × Tensor)} {w w' : Workspace}
    (h : convertWeights k name c rs w = .ok () w') :
    ∃ rs', List.Forall₂ c.Converts rs rs' ∧ w'.graph = w.graph.modify k (Node.setWeights rs') ∧
      w'.session.types = w.session.types := by
  induction rs generalizing w with
  | nil =>
      cases h
      exact ⟨[], .nil, (modify_eq_self fun _ _ => rfl).symm, rfl⟩
  | cons r rs ih =>
      obtain ⟨role, t⟩ := r
      rw [convertWeights] at h
      cases ht : quantizeTensor c.width t (c.scaleOf role) c.round with
      | error e =>
          rw [ht] at h
          contradiction
      | ok t' =>
          simp only [ht, Work.bind_apply, Work.graph_apply, Work.setGraph_apply,
            Work.count_apply] at h
          obtain ⟨rs', hrs', hgraph, htypes⟩ := ih h
          refine ⟨(role, t') :: rs', .cons ⟨rfl, ht⟩ hrs', ?_, htypes⟩
          rw [hgraph, modifyLayer, modify_modify]
          rfl

/-- Weights that can be converted are. -/
theorem exists_convertWeights {k : Handle} {name : String} {c : WeightConversion}
    {rs rs' : List (Role × Tensor)} (hrs : List.Forall₂ c.Converts rs rs') (w : Workspace) :
    ∃ w', convertWeights k name c rs w = .ok () w' := by
  induction hrs generalizing w with
  | nil => exact ⟨w, rfl⟩
  | cons hr _ ih =>
      rw [convertWeights, hr.tensor_eq]
      simp only [Work.bind_apply, Work.graph_apply, Work.setGraph_apply, Work.count_apply]
      exact ih _

/-- A layer that has been converted is one that could be. -/
theorem quantizeLayer_eq_ok {k : Handle} {w w' : Workspace}
    (hrun : quantizeLayer k w = .ok () w') :
    ∃ n n' q, w.graph.get? k = some n ∧ n.quant = some q ∧ n.Quantized n' ∧
      w'.graph = w.graph.modify k (fun _ => n') ∧
      w'.session.types = (w.session.recordType q.numberType).types := by
  obtain ⟨n, v, hnode, h⟩ := Work.bind_eq_ok.mp hrun
  obtain ⟨hn, rfl⟩ := Work.node_eq_ok.mp hnode
  cases hq : n.quant with
  | none =>
      rw [hq] at h
      contradiction
  | some q =>
      simp only [hq, Work.bind_apply, Work.recordType_apply] at h
      split at h
      · next hconvert =>
        cases hc : WeightConversion.ofRecord q with
        | error cause =>
            rw [hc] at h
            contradiction
        | ok c =>
            simp only [hc, Work.bind_apply, Work.note_apply] at h
            obtain ⟨rs, hrs, hgraph, htypes⟩ := convertWeights_eq_ok h
            refine ⟨n, n.setWeights rs, q, hn, hq, .converted hq hconvert hc hrs, ?_, htypes⟩
            rw [hgraph]
            refine modify_congr fun m hm => ?_
            rw [hn, Option.some.injEq] at hm
            rw [hm]
      · next hkeep =>
        cases h
        refine ⟨n, n, q, hn, hq, .kept hq hkeep, ?_, rfl⟩
        refine (modify_eq_self fun m hm => ?_).symm
        rw [hn] at hm
        exact Option.some.inj hm

/-- A layer that can be converted is converted without failure. -/
theorem exists_quantizeLayer {k : Handle} {w : Workspace} {n n' : Node}
    (hn : w.graph.get? k = some n) (h : n.Quantized n') :
    ∃ w', quantizeLayer k w = .ok () w' := by
  simp only [quantizeLayer, Work.bind_apply, Work.node_eq_ok.mpr ⟨hn, rfl⟩]
  cases h with
  | kept hq hkeep =>
      simp only [hq, Work.bind_apply, Work.recordType_apply, if_neg hkeep]
      exact ⟨_, rfl⟩
  | converted hq hconvert hc hrs =>
      simp only [hq, Work.bind_apply, Work.recordType_apply, if_pos hconvert, hc, Work.note_apply]
      exact exists_convertWeights hrs _

/-! ## Runs -/

/-- `g'` is `g` with some nodes converted. -/
structure Converted (hs : List Handle) (g g' : Graph) : Prop where
  order_eq : g'.order = g.order
  quantized : ∀ k ∈ hs, ∃ n n', g.get? k = some n ∧ g'.get? k = some n' ∧ n.Quantized n'
  get?_eq : ∀ k ∉ hs, g'.get? k = g.get? k

namespace Converted

variable {hs : List Handle} {g g' : Graph}

theorem nil (g : Graph) : Converted [] g g := ⟨rfl, by simp, fun _ _ => rfl⟩

/-- One node first and then others; the node may be among the others, which do not change it
again. -/
theorem cons {k : Handle} {n n' : Node} (hn : g.get? k = some n) (hq : n.Quantized n')
    (h : Converted hs (g.modify k fun _ => n') g') : Converted (k :: hs) g g' := by
  have hself : (g.modify k fun _ => n').get? k = some n' := by
    rw [get?_modify, if_pos rfl, hn, Option.map_some]
  have hother {j : Handle} (hj : k ≠ j) : (g.modify k fun _ => n').get? j = g.get? j := by
    rw [get?_modify, if_neg hj]
  refine ⟨h.order_eq, fun j hj => ?_, fun j hj => ?_⟩
  · by_cases hjk : k = j
    · subst hjk
      by_cases hmem : k ∈ hs
      -- The second time the node is settled, so what it becomes is what it is.
      · obtain ⟨m, m', hm, hm', hq'⟩ := h.quantized k hmem
        rw [hself, Option.some.injEq] at hm
        subst hm
        rw [hq'.unique hq.settled] at hm'
        exact ⟨n, n', hn, hm', hq⟩
      · exact ⟨n, n', hn, (h.get?_eq k hmem).trans hself, hq⟩
    · rw [← hother hjk]
      exact h.quantized j ((List.mem_cons.mp hj).resolve_left (Ne.symm hjk))
  · rw [List.mem_cons, not_or] at hj
    exact (h.get?_eq j hj.2).trans (hother (Ne.symm hj.1))

theorem recast (h : Converted hs g g') : g.Recast g' := by
  refine ⟨h.order_eq, fun k => ?_⟩
  by_cases hk : k ∈ hs
  · obtain ⟨n, n', hn, hn', hq⟩ := h.quantized k hk
    rw [hn, hn', Option.map_some, Option.map_some, hq.outline_eq]
  · rw [h.get?_eq k hk]

end Converted

/-- Layers that have been converted one after another, and the number types that were taken
down. -/
theorem quantizeAll_eq_ok {hs : List Handle} {w w' : Workspace}
    (h : quantizeAll hs w = .ok () w') :
    Converted hs w.graph w'.graph ∧
      ∀ t, t ∈ w'.session.types.toList ↔
        t ∈ w.session.types.toList ∨ ∃ k ∈ hs, w.graph.typeOf? k = some t := by
  induction hs generalizing w with
  | nil =>
      cases h
      exact ⟨.nil _, by simp⟩
  | cons k hs ih =>
      obtain ⟨_, v, hlayer, hrest⟩ := Work.bind_eq_ok.mp h
      obtain ⟨n, n', q, hn, hq, hquant, hgraph, htypes⟩ := quantizeLayer_eq_ok hlayer
      obtain ⟨hconverted, hrun⟩ := ih hrest
      rw [hgraph] at hconverted
      refine ⟨.cons hn hquant hconverted, fun t => ?_⟩
      have hrecast : w.graph.Recast v.graph := by
        rw [hgraph]
        exact (Converted.cons hn hquant (.nil _)).recast
      rw [hrun, htypes, Session.mem_types_recordType]
      simp only [hrecast.typeOf?_eq, List.exists_mem_cons_iff, typeOf?_of_quant hn hq,
        Option.some.injEq, eq_comm]
      tauto

/-- Layers that have been converted are not changed again. -/
theorem exists_quantizeAll {hs : List Handle} {w : Workspace}
    (hsettled : ∀ k ∈ hs, ∃ n, w.graph.get? k = some n ∧ n.Quantized n)
    (htypes : ∀ k ∈ hs, ∀ t, w.graph.typeOf? k = some t → t ∈ w.session.types.toList) :
    ∃ w', quantizeAll hs w = .ok () w' ∧ w'.graph = w.graph ∧
      w'.session.types = w.session.types := by
  induction hs generalizing w with
  | nil => exact ⟨w, rfl, rfl, rfl⟩
  | cons k hs ih =>
      obtain ⟨⟨n, hn, hquant⟩, hsettled⟩ := List.forall_mem_cons.mp hsettled
      obtain ⟨htype, htypes⟩ := List.forall_mem_cons.mp htypes
      obtain ⟨v, hlayer⟩ := exists_quantizeLayer hn hquant
      obtain ⟨m, m', q, hm, hq, hquant', hvgraph, hvtypes⟩ := quantizeLayer_eq_ok hlayer
      obtain rfl : n = m := Option.some.inj (hn.symm.trans hm)
      have hsame : v.graph = w.graph := by
        rw [hvgraph]
        refine modify_eq_self fun m hm => ?_
        rw [hn, Option.some.injEq] at hm
        rw [hquant'.unique hquant, hm]
      have hknown : v.session.types = w.session.types := by
        rw [hvtypes, Session.recordType_of_mem (htype _ (typeOf?_of_quant hn hq))]
      rw [← hsame] at hsettled
      rw [← hsame, ← hknown] at htypes
      obtain ⟨w', hrest, hgraph, htypes⟩ := ih hsettled htypes
      refine ⟨w', ?_, hgraph.trans hsame, htypes.trans hknown⟩
      rw [quantizeAll, Work.bind_apply, hlayer]
      exact hrest

/-- Conversion changes nothing but the elements of weights.  Every tensor keeps its shape and
the number of its elements, and what was float is stored in the width of the record where the
record is one of integers.  The number types of all records are taken down, and no others.  A
second conversion goes through and changes neither the graph nor the number types. -/
theorem quantize_converts {w w' : Workspace} (h : quantize w = .ok () w') :
    w.graph.Recast w'.graph ∧
    (∀ k ∈ w.graph.order, ∃ n n' q, w.graph.get? k = some n ∧ w'.graph.get? k = some n' ∧
      n.quant = some q ∧ List.Forall₂ (n.Recodes q) n.layer.weights n'.layer.weights) ∧
    (∀ k ∉ w.graph.order, w'.graph.get? k = w.graph.get? k) ∧
    (∀ t, t ∈ w'.session.types.toList ↔ t ∈ w.session.types.toList ∨
      ∃ k ∈ w.graph.order, ∃ n q, w.graph.get? k = some n ∧ n.quant = some q ∧
        q.numberType = t) ∧
    ∃ w'', quantize w' = .ok () w'' ∧ w''.graph = w'.graph ∧
      w''.session.types = w'.session.types := by
  obtain ⟨hconverted, htypes⟩ := quantizeAll_eq_ok h
  have hagain : ∃ w'', quantizeAll w.graph.order w' = .ok () w'' ∧ w''.graph = w'.graph ∧
      w''.session.types = w'.session.types := by
    refine exists_quantizeAll (fun k hk => ?_) fun k hk t ht => ?_
    · obtain ⟨_, n', _, hn', hq⟩ := hconverted.quantized k hk
      exact ⟨n', hn', hq.settled⟩
    · rw [hconverted.recast.typeOf?_eq] at ht
      exact (htypes t).mpr (.inr ⟨k, hk, ht⟩)
  refine ⟨hconverted.recast, fun k hk => ?_, hconverted.get?_eq, fun t => ?_, ?_⟩
  · obtain ⟨n, n', hn, hn', hq⟩ := hconverted.quantized k hk
    obtain ⟨q, hquant, hweights⟩ := hq.recodes
    exact ⟨n, n', q, hn, hn', hquant, hweights⟩
  · simp only [htypes, typeOf?_eq_some]
  · rwa [← hconverted.order_eq] at hagain

/-- A layer of 16-bit integers whose kernel is float and whose bias has been converted to 32
bits before, and a layer of floats. -/
def halfConverted : Graph where
  slots := [
    some ⟨.source "x" [1, 2], some (.float 32 32), [], [1]⟩,
    some ⟨⟨"d", [[1, 2]], [[1, 1]], .float32, .dense ⟨1, .relu, ⟨[1, 2], .f32 [1.5, -2]⟩,
      some ⟨[1], .i32 [7]⟩⟩⟩,
      some ⟨.integer, 16, 32, some 4, none, some 4, some .floor, some .floor⟩, [0], [2]⟩,
    some ⟨⟨"e", [[1, 1]], [[1, 1]], .float32, .dense ⟨1, .linear, ⟨[1, 1], .f32 [3]⟩, none⟩⟩,
      some (.float 32 32), [1], []⟩]
  order := [0, 1, 2]

/-- The float kernel is converted to 16 bits, the bias stays at 32 and the other layer stays as it
is; a second run changes nothing. -/
theorem quantize_halfConverted :
    ∃ w' w'', quantize ⟨halfConverted, {}⟩ = .ok () w' ∧
      w'.graph.slots.map (fun s => s.map fun n =>
        n.layer.weights.map fun r => r.2.data.integerBits?) =
          [some [], some [some 16, some 32], some [none]] ∧
      quantize w' = .ok () w'' ∧ w''.graph = w'.graph := by
  obtain ⟨w', hrun⟩ : ∃ w', quantize ⟨halfConverted, {}⟩ = .ok () w' := ⟨_, rfl⟩
  obtain ⟨_, _, _, _, w'', hagain, hgraph, _⟩ := quantize_converts hrun
  refine ⟨w', w'', hrun, ?_, hagain, hgraph⟩
  cases hrun
  rfl

end Quantize

end NeuralC
