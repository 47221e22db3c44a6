import NeuralC.Proofs.Compile.Render
import NeuralC.Proofs.Simplify.FixedPoint
import NeuralC.Proofs.Simplify.Shapes

/-!
# NeuralC.Proofs.Compile.Pipeline

A compilation of a model description ends with files or with a report about the
model.  Each stage is safe on what the stages in front of it leave: annotation
gives every layer a record, simplification keeps the records and takes away the
kinds without templates, validation refuses activations that cannot be written
in a layer, and the conversion of weights keeps all of it.  What is left is
prepared for memory planning and generation (`Graph.Prepared`).

Beside the two, a size can be too large to be computed.  Every stage keeps the
dimensions of all arrays such that they can be multiplied (`Node.Measured`), so
that is either so from the beginning or in the bytes of all outputs together
(`Graph.Oversized`).
-/

namespace NeuralC

open NeuralC.Work

/-! ## Generation -/

namespace Emit

open NeuralC.C

variable {Large : Graph → Prop} {w : Workspace} {s : Scope}

structure Rendered (s : Scope) (file : String × Template) (a : Artifact) : Prop where
  path_eq : a.path = file.1
  contents_eq : engine file.2 s = .ok a.contents

/-- The files of a layer; an input has none. -/
inductive LayerRendered (s : Scope) (h : Handle) : List Artifact → Prop where
  | input {n : Node} (hn : s.graph.get? h = some n) (hfamily : family? n.layer = .ok none) :
    LayerRendered s h []
  | computed {n : Node} {family : String} {weights : List CArray} {as : List Artifact}
    (hn : s.graph.get? h = some n) (hfamily : family? n.layer = .ok (some family))
    (hweights : weightArrays n.layer = .ok weights)
    (has : List.Forall₂ (Rendered { s with layer := some h, weights := weights })
      (layerFiles n.layer family) as) :
    LayerRendered s h as

/-- The files of a model: of its sizes and number types, of its layers in order, and of the
whole. -/
structure Emitted (s : Scope) (as : List Artifact) (leading : List Artifact)
    (layers : List (List Artifact)) (trailing : List Artifact) : Prop where
  eq_append : as = leading ++ layers.flatten ++ trailing
  leading : List.Forall₂ (Rendered s) leadingFiles leading
  layers : List.Forall₂ (LayerRendered s) s.graph.order layers
  trailing : List.Forall₂ (Rendered s) trailingFiles trailing

/-- Files whose code can be made are rendered, in order. -/
theorem ensures_renderFiles {files : List (String × Template)}
    (hfiles : ∀ file ∈ files, Safe (Large w.graph) (code file.2 s)) :
    Ensures Large (renderFiles engine s files) w fun as v =>
      v.graph = w.graph ∧ List.Forall₂ (Rendered s) files as := by
  induction files generalizing w with
  | nil => exact ensures_pure.mpr ⟨rfl, .nil⟩
  | cons file rest ih =>
      have hengine : Safe (Large w.graph) (engine file.2 s) :=
        safe_bind.mpr ⟨hfiles file List.mem_cons_self, fun _ _ => safe_pure _⟩
      simp only [renderFiles, renderFile, ensures_bind, ensures_attempt, ensures_count,
        ensures_pure]
      refine ⟨hengine, fun contents hcontents => ?_⟩
      refine Ensures.mono (ih fun f hf => hfiles f (List.mem_cons_of_mem file hf))
        fun as v hv => ?_
      exact ⟨hv.1, .cons ⟨rfl, hcontents⟩ hv.2⟩

section Layers

variable (hg : s.graph.Prepared) (hm : ¬Large w.graph → s.graph.All Node.Measured)

include hg

include hm in
/-- A layer is emitted into its own files. -/
theorem ensures_emitLayer {h : Handle} (hh : s.graph.contains h = true) :
    Ensures Large (emitLayer engine s h) w fun as v =>
      v.graph = w.graph ∧ LayerRendered s h as := by
  obtain ⟨n, hn⟩ := Graph.contains_iff.mp hh
  have hprep := hg.prepared h n hn
  obtain ⟨family?, hfamily⟩ := hprep.family
  simp only [emitLayer, ensures_bind, Graph.node_eq_ok.mpr hn, hfamily, ensures_attempt, safe_ok,
    ensures_check, reduceCtorEq, false_implies, implies_true, Except.ok.injEq, forall_eq',
    true_and]
  cases family? with
  | none => exact ensures_pure.mpr ⟨rfl, .input hn hfamily⟩
  | some family =>
      simp only [ensures_bind, ensures_attempt]
      refine ⟨safe_weightArrays hprep.sized fun hl => hm hl h n hn, fun weights hweights => ?_⟩
      have hbound : ∀ file ∈ layerFiles n.layer family,
          Safe (Large w.graph) (code file.2 { s with layer := some h, weights := weights }) := by
        obtain ⟨hheader, hsource, hweights⟩ :=
          safe_code_layer (s := { s with layer := some h, weights := weights }) hg hm rfl hn
            hfamily
        intro file hfile
        simp only [layerFiles, List.mem_append, List.mem_cons, List.not_mem_nil, or_false,
          List.mem_ite_nil_right] at hfile
        rcases hfile with (rfl | rfl) | ⟨_, rfl⟩
        · exact hheader
        · exact hsource
        · exact hweights
      refine (ensures_renderFiles hbound).mono fun files v hv => ?_
      exact ⟨hv.1, .computed hn hfamily hweights hv.2⟩

/-- Layers are emitted one after another. -/
theorem ensures_emitLayers {hs : List Handle}
    (hm : ¬Large w.graph → s.graph.All Node.Measured)
    (hhs : ∀ h ∈ hs, s.graph.contains h = true) :
    Ensures Large (emitLayers engine s hs) w fun as v =>
      v.graph = w.graph ∧ ∃ layers, as = layers.flatten ∧
        List.Forall₂ (LayerRendered s) hs layers := by
  induction hs generalizing w with
  | nil => exact ensures_pure.mpr ⟨rfl, [], rfl, .nil⟩
  | cons h hs ih =>
      simp only [emitLayers, ensures_bind, ensures_pure]
      refine (ensures_emitLayer hg hm (hhs h List.mem_cons_self)).mono fun files v hv => ?_
      rw [← hv.1] at hm
      refine Ensures.mono (ih hm fun k hk => hhs k (List.mem_cons_of_mem h hk)) fun rest u hu => ?_
      obtain ⟨hu, layers, rfl, hlayers⟩ := hu
      exact ⟨hu.trans hv.1, files :: layers, rfl, .cons hv.2 hlayers⟩

end Layers

/-- The files of a prepared graph, for a plan of its outputs. -/
theorem ensures_emit {plan : Memory.Plan} (hg : w.graph.Prepared)
    (hm : ¬Large w.graph → w.graph.All Node.Measured) (hplan : plan.Within w.graph) :
    Ensures Large (emit engine plan) w fun b v => v.graph = w.graph ∧
      ∃ leading layers trailing, Emitted ⟨w.graph, plan, w.session.types, none, []⟩ b.artifacts
        leading layers trailing := by
  simp only [emit, ensures_bind, ensures_get, ensures_note, ensures_pure]
  obtain ⟨hdefines, hnumbers, hheader, hmodel⟩ :=
    safe_code_model (s := ⟨w.graph, plan, w.session.types, none, []⟩) hg hm hplan
  refine (ensures_renderFiles (by simp [leadingFiles, hdefines, hnumbers])).mono
    fun leading v₁ hv₁ => ?_
  have hm₁ : ¬Large v₁.graph → w.graph.All Node.Measured := by
    rw [hv₁.1]
    exact hm
  refine Ensures.mono (ensures_emitLayers (by exact hg) (by exact hm₁)
    fun h hh => hg.mem_order.mp hh) fun _ v₂ hv₂ => ?_
  obtain ⟨hv₂, layers, rfl, hlayers⟩ := hv₂
  refine (ensures_renderFiles (by simp [trailingFiles, hv₂, hv₁.1, hheader, hmodel])).mono
    fun trailing v₃ hv₃ => ?_
  exact ⟨hv₃.1.trans (hv₂.trans hv₁.1), leading, layers, trailing, rfl, hv₁.2, hlayers, hv₃.2⟩

end Emit

/-! ## A prepared graph -/

namespace Calibration.Annotated

variable {g₀ g : Graph} (ha : Annotated g₀ g)

include ha

/-- Annotation keeps the sizes of layers. -/
theorem sized (hg : g₀.All Node.Sized) : g.All Node.Sized := by
  refine ha.all (fun m n hlayer _ hm => ?_) hg
  rw [Node.Sized, hlayer]
  exact hm

theorem supplied (hg : g₀.All Node.Supplied) : g.All Node.Supplied := by
  refine ha.all (fun m n hlayer hpreds hm => ?_) hg
  rw [Node.Supplied, hlayer, hpreds]
  exact hm

theorem measured (hg : g₀.All Node.Measured) : g.All Node.Measured := by
  refine ha.all (fun m n hlayer _ hm => ?_) hg
  exact ⟨hlayer ▸ hm.inputs, hlayer ▸ hm.outputs, hlayer ▸ hm.weights⟩

end Calibration.Annotated

/-- Conversion keeps the shapes of all arrays. -/
theorem Graph.Recast.measured {g g' : Graph} (hr : g.Recast g') (hg : g.All Node.Measured) :
    g'.All Node.Measured := by
  intro k n' hn'
  obtain ⟨n, hn, heq⟩ := hr.exists_get? hn'
  have hmeasured := hg k n hn
  have hinputs : n'.layer.inputShapes = n.layer.inputShapes := by
    simpa [Node.outline] using congrArg (fun m : Node => m.layer.inputShapes) heq
  have houtputs : n'.layer.outputShapes = n.layer.outputShapes := by
    simpa [Node.outline] using congrArg (fun m : Node => m.layer.outputShapes) heq
  have hshapes : n'.layer.kind.weightShapes = n.layer.kind.weightShapes :=
    LayerKind.weightShapes_congr (congrArg (fun n : Node => n.layer.kind) heq)
  refine ⟨hinputs ▸ hmeasured.inputs, houtputs ▸ hmeasured.outputs, fun r hr => ?_⟩
  have hmem : (r.1, r.2.shape) ∈ n.layer.kind.weightShapes :=
    hshapes ▸ List.mem_map_of_mem hr
  obtain ⟨r₀, hr₀, heq₀⟩ := List.mem_map.mp hmem
  rw [← (Prod.mk.inj heq₀).2]
  exact hmeasured.weights r₀ hr₀

namespace Graph

open NeuralC.Simplify

/-- The kinds without templates are those that simplification takes away. -/
theorem exists_family?_eq_ok {l : Layer} (hidentity : isIdentity l.kind = false)
    (hdropout : isDropout l.kind = false) (hpadding : isPadding l.kind = false) :
    ∃ family, C.family? l = .ok family := by
  unfold C.family?
  cases hkind : l.kind with
  | identity =>
      rw [hkind] at hidentity
      contradiction
  | dropout _ =>
      rw [hkind] at hdropout
      contradiction
  | zeroPadding1D _ | zeroPadding2D _ =>
      rw [hkind] at hpadding
      contradiction
  | _ => exact ⟨_, rfl⟩

theorem Linked.kind_of_handlesWhere_eq_nil {g : Graph} (hg : g.Linked) {p : LayerKind → Bool}
    (hp : g.handlesWhere p = []) {h : Handle} {n : Node} (hn : g.get? h = some n) :
    p n.layer.kind = false := by
  by_contra hkind
  have hmem : h ∈ g.handlesWhere p :=
    mem_handlesWhere.mpr ⟨hg.mem_of_get? hn, n, hn, by simpa using hkind⟩
  rw [hp] at hmem
  contradiction

/-- In a settled graph every layer has a template. -/
theorem exists_family_of_settled {g : Graph} (hg : g.Linked) (hs : Settled g) :
    g.All fun n => ∃ family, C.family? n.layer = .ok family := fun _ _ hn =>
  exists_family?_eq_ok (hg.kind_of_handlesWhere_eq_nil hs.identity hn)
    (hg.kind_of_handlesWhere_eq_nil hs.dropout hn) (hg.kind_of_handlesWhere_eq_nil hs.padding hn)

/-- What annotation, simplification and validation leave. -/
theorem prepared_of_settled {g₁ g : Graph} (hrecorded : g₁.All Node.Recorded)
    (hsized : g₁.All Node.Sized) (hg : g.Framed) (hi : g₁.Inherits g) (hs : Settled g)
    (hinline : g.All fun n => n.layer.kind.Inline) : g.Prepared where
  toFramed := hg
  prepared := fun h n hn =>
    { recorded := by
        refine Graph.All.inherits (fun n n' hk hn => ?_) hrecorded hi h n hn
        rw [Node.Recorded, hk.isSome_quant]
        exact hn
      sized := by
        refine Graph.All.inherits (fun n n' hk hn => ?_) hsized hi h n hn
        rw [Node.Sized, hk.weights_eq]
        exact hn
      inline := hinline h n hn
      family := exists_family_of_settled hg.toLinked hs h n hn }

end Graph

/-! ## Compilation -/

/-- The outputs of the graph can be laid out, but in more bytes than can be counted. -/
def Graph.Exhausts (g : Graph) : Prop :=
  ∃ plan, (Memory.layout g).2 = .ok plan ∧ sizeLimit ≤ plan.need g

/-- A graph that compilation starts with, or what it has made of it, is too large: dimensions of
some array cannot be multiplied, or the outputs need more bytes than can be counted. -/
def Graph.Oversized (g g' : Graph) : Prop := ¬g.All Node.Measured ∨ g'.Exhausts

/-- What does not fit although every output can be counted needs too many bytes. -/
theorem Memory.Plan.need_of_not_fits {plan : Plan} {g : Graph} (hg : g.All Node.Measured)
    (hfits : ¬plan.Fits g) : sizeLimit ≤ plan.need g := by
  by_contra hneed
  exact hfits ⟨fun _ _ h _ n hn => (hg h n hn).outputShape.counted_drop 1, Nat.not_le.mp hneed⟩

/-- What a compilation of the graph at work in `w` has gone through when it ends with `c` and
leaves `v`. -/
structure Compiled (w : Workspace) (c : Compilation) (v : Workspace) : Prop where
  prepared : v.graph.Prepared
  within : c.plan.Within v.graph
  fits : c.plan.Fits v.graph
  /-- The layers are those that simplification leaves of the annotated graph, with other numbers
  in their weights. -/
  optimized : ∃ v₁ v₂, Calibration.Annotated w.graph v₁.graph ∧ Simplify.optimize v₁ = .ok () v₂ ∧
    v₂.graph.Recast v.graph
  emitted : ∃ leading layers trailing,
    Emit.Emitted ⟨v.graph, c.plan, c.types, none, []⟩ c.bundle.artifacts leading layers trailing

/-- Each stage is safe on what the stages in front of it leave. -/
theorem ensures_compiled {w : Workspace} (hg : w.graph.Framed) (hsized : w.graph.All Node.Sized)
    (hsupplied : w.graph.All Node.Supplied) (format : NumberFormat)
    (table : Option Calibration.Table) :
    Ensures w.graph.Oversized (compile format table) w (Compiled w) := by
  -- A graph that is not too large is measured to begin with, and every stage keeps it so.
  have hmeasured : ∀ {g}, ¬w.graph.Oversized g → w.graph.All Node.Measured :=
    fun hl => not_not.mp fun hm => hl (.inl hm)
  simp only [compile, compileWith, ensures_bind, ensures_graph, ensures_note, ensures_inStage,
    ensures_check, ensures_get, ensures_pure]
  refine ⟨fun d hd => hg.toLinked.isInternal_of_verify hd, fun _ _ => ?_⟩
  refine Ensures.mono (Calibration.ensures_annotate (by exact hg) table format) fun _ v₁ ha => ?_
  have hsound : Simplify.Sound w.graph.Oversized Simplify.optimize v₁ :=
    Simplify.sound_optimize ha.framed
  have hsettled := hsound.and_of_ok fun _ _ ho =>
    And.intro ho (Simplify.settled_of_optimize ha.framed.toLinked ho)
  refine hsettled.mono fun _ v₂ hv₂ => ?_
  obtain ⟨⟨hframed, hinherits⟩, ho, hs⟩ := hv₂
  have hmeasured₂ : w.graph.All Node.Measured → v₂.graph.All Node.Measured :=
    fun hm => (ha.measured hm).measured hinherits
  refine Ensures.mono (Validate.ensures_validate (by exact hframed.toLinked)
    (by exact (ha.supplied hsupplied).supplied hinherits)
    (by exact fun hl => hmeasured₂ (hmeasured hl))) fun _ v₃ hv₃ => ?_
  obtain ⟨hv₃, hinline⟩ := hv₃
  have hprep := Graph.prepared_of_settled ha.recorded (ha.sized hsized) hframed hinherits hs
    hinline
  rw [← hv₃] at hprep
  refine (Quantize.ensures_quantize hprep).mono fun _ v₄ hv₄ => ?_
  obtain ⟨hv₄, hrecast⟩ := hv₄
  rw [hv₃] at hrecast
  have hmeasured₄ : ∀ {g}, ¬w.graph.Oversized g → v₄.graph.All Node.Measured :=
    fun hl => hrecast.measured (hmeasured₂ (hmeasured hl))
  have hlarge : ∀ plan, (Memory.layout v₄.graph).2 = .ok plan → ¬plan.Fits v₄.graph →
      w.graph.Oversized v₄.graph := by
    intro plan hplan hfits
    by_contra hl
    exact hl (.inr ⟨plan, hplan, Memory.Plan.need_of_not_fits (hmeasured₄ hl) hfits⟩)
  refine (Memory.ensures_allocate hv₄.toLinked hlarge).mono fun plan v₅ hv₅ => ?_
  obtain ⟨hv₅, hplan, hfits⟩ := hv₅
  rw [← hv₅] at hv₄ hplan hfits hrecast
  refine Ensures.mono (Emit.ensures_emit (by exact hv₄) (by exact hv₅ ▸ hmeasured₄) hplan)
    fun b v₆ hv₆ => ?_
  obtain ⟨hv₆, hemitted⟩ := hv₆
  rw [← hv₆] at hv₄ hplan hfits hrecast hemitted
  exact ⟨hv₄, hplan, hfits, ⟨v₁, v₂, ha, ho, hrecast⟩, hemitted⟩

/-- The compilation of a model description is safe. -/
theorem ensures_compiled_of_parse {text : String} {g : Graph} (hp : Model.parse text = .ok g)
    (format : NumberFormat) (table : Option Calibration.Table) (session : Session) :
    Ensures g.Oversized (compile format table) ⟨g, session⟩ (Compiled ⟨g, session⟩) := by
  obtain ⟨hlayers, hbuilt⟩ := Model.built_of_parse hp
  exact ensures_compiled (w := ⟨g, session⟩) (hbuilt.framed hlayers) (Model.sized_of_parse hp)
    (Model.supplied_of_parse hp) format table

/-- What the compilation of a model description has gone through. -/
theorem compiled_of_parse {text : String} {g : Graph} (hp : Model.parse text = .ok g)
    {format : NumberFormat} {table : Option Calibration.Table} {session : Session}
    {c : Compilation} {w : Workspace} (hc : compile format table ⟨g, session⟩ = .ok c w) :
    Compiled ⟨g, session⟩ c w :=
  (ensures_iff.mp (ensures_compiled_of_parse hp format table session)).2 c w hc

/-- A model that can be read compiles to files, from a graph of prepared layers and a plan of
their outputs whose bytes can be counted, or is refused with a report about the model.  No element
or node is looked up that is not there, and none of the reports is made that a stage keeps for
what an earlier one should have seen to.  Only a size can be too large to be computed: of an array
that the model declares, or of the outputs together. -/
theorem compile_ok_or_refused {text : String} {g : Graph} (hp : Model.parse text = .ok g)
    (format : NumberFormat) (table : Option Calibration.Table) (session : Session) :
    (∃ c w, compile format table ⟨g, session⟩ = .ok c w ∧ w.graph.Prepared ∧
        c.plan.Within w.graph ∧ c.plan.Fits w.graph) ∨
      (∃ d w, compile format table ⟨g, session⟩ = .error (.reported d) w ∧
        d.isInternal = false) ∨
      ∃ w, compile format table ⟨g, session⟩ = .error .overflow w ∧
        (¬g.All Node.Measured ∨
          ∃ plan, (Memory.layout w.graph).2 = .ok plan ∧ sizeLimit ≤ plan.need w.graph) := by
  have hcompile := ensures_compiled_of_parse hp format table session
  unfold Ensures at hcompile
  cases hc : compile format table ⟨g, session⟩ with
  | ok c w =>
      rw [hc] at hcompile
      exact .inl ⟨c, w, rfl, hcompile.prepared, hcompile.within, hcompile.fits⟩
  | error f w =>
      rw [hc] at hcompile
      cases f with
      | reported d => exact .inr (.inl ⟨d, w, rfl, hcompile⟩)
      | overflow => exact .inr (.inr ⟨w, rfl, hcompile⟩)
      | outOfRange | disorder => contradiction

/-- Of seven layers three are left, which compute what the padding, the rectifier and the layers
that do nothing did.  One output is in a pool, and there are files for all layers but the input,
with the weights of the convolution in one of their own. -/
theorem compile_plain :
    Model.parse Simplify.plainText = .ok Simplify.plain ∧
      ∃ c w, compile .float32 none ⟨Simplify.plain, {}⟩ = .ok c w ∧ w.graph.Prepared ∧
        c.plan.Within w.graph ∧ c.plan.Fits w.graph ∧ w.graph.order = [0, 3, 6] ∧
        c.plan.pools = [⟨[3], 2⟩] ∧ c.plan.need w.graph = 8 ∧
        c.bundle.artifacts.map Artifact.path = ["include/defines.h", "include/number.h",
          "include/conv.h", "conv.c", "weights/conv.c", "include/y.h", "y.c", "include/model.h",
          "model.c"] := by
  have hrun : leaves (fun c w => decide (w.graph.order = [0, 3, 6] ∧
      c.plan.pools = [⟨[3], 2⟩] ∧ c.plan.need w.graph = 8 ∧
      c.bundle.artifacts.map Artifact.path = ["include/defines.h", "include/number.h",
        "include/conv.h", "conv.c", "weights/conv.c", "include/y.h", "y.c", "include/model.h",
        "model.c"])) (compile .float32 none ⟨Simplify.plain, {}⟩) = true := by decide +kernel
  obtain ⟨c, w, hc, hleft⟩ := exists_of_leaves hrun
  refine ⟨Simplify.parse_plainText, c, w, hc, ?_⟩
  rcases compile_ok_or_refused Simplify.parse_plainText .float32 none {} with
    ⟨c', w', hc', hprepared, hwithin, hfits⟩ | ⟨d, w', hc', _⟩ | ⟨w', hc', _⟩
  · rw [hc] at hc'
    cases hc'
    exact ⟨hprepared, hwithin, hfits, of_decide_eq_true hleft⟩
  · rw [hc] at hc'
    cases hc'
  · rw [hc] at hc'
    cases hc'

/-- An output between two others that has fewer elements than the limit of sizes, but not fewer
bytes. -/
def vastText : String :=
  "x = input() -> [1, 2]
  y = activation(x) activation=softmax -> [1, 4611686018427387904]
  z = activation(y) activation=softmax -> [1, 2]"

def vast : Graph where
  slots := [some ⟨.source "x" [1, 2], none, [], [1]⟩,
    some ⟨⟨"y", [[1, 2]], [[1, 4611686018427387904]], .float32, .activation .softmax⟩, none, [0],
      [2]⟩,
    some ⟨⟨"z", [[1, 4611686018427387904]], [[1, 2]], .float32, .activation .softmax⟩, none, [1],
      []⟩]
  order := [0, 1, 2]

set_option maxRecDepth 4000 in
theorem parse_vastText : Model.parse vastText = .ok vast :=
  Model.parse_of_toList String.toList_ofList (by decide +kernel)

/-- All its layers are within the limit of sizes. -/
theorem measured_vast : vast.All Node.Measured := by
  have hnarrow : ∀ shape ∈ [[1, 2]], Shape.Bounded shape :=
    List.forall_mem_singleton.mpr (Shape.bounded_of_pos (by decide) (by decide))
  have hvast : ∀ shape ∈ [[1, 4611686018427387904]], Shape.Bounded shape :=
    List.forall_mem_singleton.mpr (Shape.bounded_of_pos (by decide) (by decide))
  intro h n hn
  have hmem : some n ∈ vast.slots := List.mem_of_getElem? (Option.join_eq_some_iff.mp hn)
  simp only [vast, List.mem_cons, Option.some.injEq, List.not_mem_nil, or_false] at hmem
  rcases hmem with rfl | rfl | rfl
  · exact ⟨hnarrow, hnarrow, List.forall_mem_nil _⟩
  · exact ⟨hnarrow, hvast, List.forall_mem_nil _⟩
  · exact ⟨hvast, hnarrow, List.forall_mem_nil _⟩

/-- All dimensions can be multiplied, but neither files come out nor a report. -/
theorem compile_vastText :
    Model.parse vastText = .ok vast ∧ vast.All Node.Measured ∧
      ∃ w, compile .float32 none ⟨vast, {}⟩ = .error .overflow w :=
  ⟨parse_vastText, measured_vast, exists_of_stops (by decide +kernel)⟩

end NeuralC
