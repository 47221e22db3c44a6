import NeuralC.Proofs.Compile.Safe
import NeuralC.Proofs.Simplify.Contract
import NeuralC.Proofs.Simplify.FixedPoint
import NeuralC.Proofs.Simplify.RemoveEvaluate

/-!
# NeuralC.Proofs.Compile.Passes

Simplification is safe.  A pass chooses its layers first and then works on them
one after another, while the graph shrinks under it.  `Targets` is what holds in
between: the layers still to come are there and are of the kind that was chosen,
so none of them is missing, none is of another kind and none is the input.

A step takes one layer out or leaves the graph as it is, and every layer that
stays keeps its weights and its record (`Step`).  So do all passes together
(`sound_optimize`), which is all that later stages need to know of them.
-/

namespace NeuralC

/-! ## What stays -/

/-- A layer that flattens has no more input shapes than operands. -/
def Node.Supplied (n : Node) : Prop :=
  n.layer.kind = .flatten → n.layer.inputShapes.length ≤ n.preds.length

/-- The node `n'` has the weights and the output shapes of `n`, a record if `n` has one, and
operands enough if `n` has. -/
structure Node.Keeps (n n' : Node) : Prop where
  weights_eq : n'.layer.weights = n.layer.weights
  outputShapes_eq : n'.layer.outputShapes = n.layer.outputShapes
  isSome_quant : n'.quant.isSome = n.quant.isSome
  supplied : n.Supplied → n'.Supplied

/-- Some node of the graph reads the shape. -/
def Graph.Reads (g : Graph) (shape : Shape) : Prop :=
  ∃ k n, g.get? k = some n ∧ shape ∈ n.layer.inputShapes

/-- Every node of `g'` has been one of `g`, with the same weights and outputs and with a record if
it has one now, and reads shapes that are read in `g`. -/
def Graph.Inherits (g g' : Graph) : Prop :=
  ∀ k n', g'.get? k = some n' →
    (∃ n, g.get? k = some n ∧ n.Keeps n') ∧ ∀ shape ∈ n'.layer.inputShapes, g.Reads shape

namespace Graph.Inherits

variable {g g₁ g' : Graph}

theorem refl (g : Graph) : g.Inherits g := fun k n hn =>
  ⟨⟨n, hn, rfl, rfl, rfl, id⟩, fun _ hshape => ⟨k, n, hn, hshape⟩⟩

theorem trans (h₁ : g.Inherits g₁) (h₂ : g₁.Inherits g') : g.Inherits g' := by
  intro k n' hn'
  obtain ⟨⟨n₁, hn₁, hk₂⟩, hreads₂⟩ := h₂ k n' hn'
  obtain ⟨⟨n, hn, hk₁⟩, _⟩ := h₁ k n₁ hn₁
  refine ⟨⟨n, hn, hk₂.weights_eq.trans hk₁.weights_eq,
    hk₂.outputShapes_eq.trans hk₁.outputShapes_eq, hk₂.isSome_quant.trans hk₁.isSome_quant,
    fun hsupplied => hk₂.supplied (hk₁.supplied hsupplied)⟩, fun shape hshape => ?_⟩
  obtain ⟨j, m, hm, hread⟩ := hreads₂ shape hshape
  exact (h₁ j m hm).2 shape hread

/-- Every node is gone or is an old one changed by a function that keeps its input shapes. -/
theorem of_map (hget : ∀ k, g'.get? k = none ∨
    ∃ f : Node → Node, (∀ n : Node, n.Keeps (f n) ∧
      (f n).layer.inputShapes = n.layer.inputShapes) ∧ g'.get? k = (g.get? k).map f) :
    g.Inherits g' := by
  intro k n' hn'
  rcases hget k with hnone | ⟨f, hf, hmap⟩
  · rw [hnone] at hn'
    contradiction
  · rw [hmap] at hn'
    obtain ⟨n, hn, rfl⟩ := Option.map_eq_some_iff.mp hn'
    refine ⟨⟨n, hn, (hf n).1⟩, fun shape hshape => ⟨k, n, hn, ?_⟩⟩
    rwa [(hf n).2] at hshape

end Graph.Inherits

def Graph.All (P : Node → Prop) (g : Graph) : Prop := ∀ k n, g.get? k = some n → P n

/-- A property that single steps keep is inherited by the whole graph. -/
theorem Graph.All.inherits {P : Node → Prop} {g g' : Graph} (hP : ∀ n n', n.Keeps n' → P n → P n')
    (hg : g.All P) (hi : g.Inherits g') : g'.All P := by
  intro k n' hn'
  obtain ⟨⟨n, hn, hk⟩, _⟩ := hi k n' hn'
  exact hP n n' hk (hg k n hn)

theorem Graph.All.supplied {g g' : Graph} (hg : g.All Node.Supplied) (hi : g.Inherits g') :
    g'.All Node.Supplied :=
  hg.inherits (fun _ _ hk => hk.supplied) hi

/-- The dimensions of all arrays that the node has to do with can be multiplied. -/
structure Node.Measured (n : Node) : Prop where
  inputs : ∀ shape ∈ n.layer.inputShapes, shape.Bounded
  outputs : ∀ shape ∈ n.layer.outputShapes, shape.Bounded
  weights : ∀ r ∈ n.layer.weights, r.2.shape.Bounded

/-- The output of a measured layer is within the limit of sizes. -/
theorem Node.Measured.outputShape {n : Node} (hn : n.Measured) : n.layer.outputShape.Bounded := by
  rw [Layer.outputShape]
  cases hshapes : n.layer.outputShapes with
  | nil => exact Shape.bounded_nil
  | cons shape shapes => exact hn.outputs shape (by simp [hshapes])

theorem Graph.All.measured {g g' : Graph} (hg : g.All Node.Measured) (hi : g.Inherits g') :
    g'.All Node.Measured := by
  intro k n' hn'
  obtain ⟨⟨n, hn, hk⟩, hreads⟩ := hi k n' hn'
  refine ⟨fun shape hshape => ?_, ?_, ?_⟩
  · obtain ⟨j, m, hm, hread⟩ := hreads shape hshape
    exact (hg j m hm).inputs shape hread
  · rw [hk.outputShapes_eq]
    exact (hg k n hn).outputs
  · rw [hk.weights_eq]
    exact (hg k n hn).weights

theorem Graph.All.modify {P : Node → Prop} {g : Graph} {h : Handle} {f : Node → Node}
    (hg : g.All P) (hf : ∀ n, P n → P (f n)) : (g.modify h f).All P := by
  intro k n' hn'
  obtain ⟨n, hn, rfl | rfl⟩ := exists_of_get?_modify hn'
  · exact hg k n' hn
  · exact hf n (hg k n hn)

/-- Putting several operands in place of one makes the list no shorter. -/
theorem length_le_length_substitute {h : Handle} {items : List Handle} (hitems : items ≠ [])
    (xs : List Handle) : xs.length ≤ (substitute h items xs).length := by
  induction xs with
  | nil => exact Nat.le_refl _
  | cons x xs ih =>
      rw [substitute_cons, List.length_append, List.length_cons]
      split
      · have hpos : 0 < items.length := List.length_pos_iff.mpr hitems
        omega
      · rw [List.length_singleton]
        omega

namespace Simplify

open NeuralC.Graph

variable {Large : Graph → Prop} {large : Prop}

/-! ## Steps -/

/-- A step on the layer `h` leaves the graph as it is or takes `h` out; the layers that stay
keep their weights and records. -/
structure Step (g g' : Graph) (h : Handle) : Prop where
  inherits : g.Inherits g'
  eq_or_bypassed : g' = g ∨ ∃ n, Bypassed g g' h n

/-- Layers of some kinds in a graph. -/
structure Targets (p : LayerKind → Bool) (g : Graph) (hs : List Handle) : Prop where
  framed : g.Framed
  nodup : hs.Nodup
  exists_get? : ∀ h ∈ hs, ∃ n, g.get? h = some n ∧ p n.layer.kind = true

/-- The layers picked by a predicate are targets of the pass. -/
theorem targets_handlesWhere {g : Graph} (hg : g.Framed) (p : LayerKind → Bool) :
    Targets p g (g.handlesWhere p) where
  framed := hg
  nodup := hg.nodup.filter _
  exists_get? := fun _ hh => (mem_handlesWhere.mp hh).2

/-- A step on the first of the layers leaves the others to work on. -/
theorem Targets.step {p : LayerKind → Bool} {g g' : Graph} {h : Handle} {hs : List Handle}
    (ht : Targets p g (h :: hs)) (hp : Steady p) (hinput : p .input = false)
    (hstep : Step g g' h) : Targets p g' hs := by
  obtain ⟨hnotin, hnd⟩ := List.nodup_cons.mp ht.nodup
  rcases hstep.eq_or_bypassed with rfl | ⟨n, hb⟩
  · exact ⟨ht.framed, hnd, fun k hk => ht.exists_get? k (List.mem_cons_of_mem h hk)⟩
  · obtain ⟨n', hn', hkind⟩ := ht.exists_get? h List.mem_cons_self
    rw [hb.get?_gone] at hn'
    injection hn' with hn'
    subst hn'
    refine ⟨hb.framed ht.framed (isInput_of_kind hinput hkind), hnd, fun k hk => ?_⟩
    obtain ⟨m, hm, hmkind⟩ := ht.exists_get? k (List.mem_cons_of_mem h hk)
    obtain ⟨m', hm', hl, _⟩ := hb.kept (fun he => hnotin (he ▸ hk)) hm
    exact ⟨m', hm', (hp.reworked hl).trans hmkind⟩

/-! ### Removing a layer -/

/-- The input layer is no target. -/
theorem input?_ne_of_kind {p : LayerKind → Bool} {g : Graph} {h : Handle} {n : Node}
    (hg : g.Framed) (hinput : p .input = false) (hn : g.get? h = some n)
    (hk : p n.layer.kind = true) : g.input? ≠ some h := by
  intro hf
  have hi := isInput_of_kind hinput hk
  rw [hg.first_isInput hf hn] at hi
  contradiction

/-- Deleting a layer that is not the first. -/
theorem ensures_delete {w : Workspace} {h : Handle} {n : Node} (hg : w.graph.Linked)
    (hn : w.graph.get? h = some n) (hfirst : w.graph.input? ≠ some h) :
    Work.Ensures Large (Work.delete h) w fun _ v => w.graph.delete h = .ok v.graph := by
  obtain ⟨g', hd⟩ := exists_delete (hg.mem_of_get? hn) hn hfirst
  simp only [Work.Ensures, Work.delete_apply hg, hd]

/-- Where a node gets the operands of one that it reads, it does not have less of them. -/
theorem keeps_bypass {h : Handle} {n : Node} (hpreds : n.preds ≠ []) (m : Node) :
    m.Keeps (Node.bypass h n m) where
  weights_eq := rfl
  outputShapes_eq := rfl
  isSome_quant := rfl
  supplied := fun hm hkind => (hm hkind).trans (length_le_length_substitute hpreds m.preds)

/-- Deletion keeps what the other layers had. -/
theorem inherits_of_delete {g g' : Graph} {h : Handle} {n : Node} (hg : g.Linked)
    (hn : g.get? h = some n) (hpreds : n.preds ≠ []) (hd : g.delete h = .ok g') :
    g.Inherits g' := by
  refine .of_map fun k => ?_
  rw [hg.get?_delete hd hn]
  split
  · exact .inl rfl
  · exact .inr ⟨Node.bypass h n, fun m => ⟨keeps_bypass hpreds m, rfl⟩, rfl⟩

/-- One deletion is a step of a pass. -/
theorem step_of_delete {g g' : Graph} {h : Handle} (hg : g.Framed)
    (hd : g.delete h = .ok g') : Step g g' h := by
  obtain ⟨n, hn, _, hfirst, _⟩ := delete_cases hd
  exact ⟨inherits_of_delete hg.toLinked hn (hg.inner hfirst hn).2 hd,
    .inr (bypassed_of_delete hg.toLinked hd)⟩

/-! ### Folding a padding layer -/

/-- Handing padding over to layers that are there. -/
theorem ensures_absorbAll {rank : Nat} {padding : List (Nat × Nat)} {shapes : List Shape}
    {hs : List Handle} {w : Workspace} (hhs : ∀ h ∈ hs, w.graph.contains h = true) :
    Work.Ensures Large (absorbAll rank padding shapes hs) w fun _ _ => True := by
  induction hs generalizing w with
  | nil => exact Work.ensures_pure.mpr trivial
  | cons h hs ih =>
      obtain ⟨hh, hhs⟩ := List.forall_mem_cons.mp hhs
      simp only [absorbAll, absorbPadding, Work.ensures_bind, Work.ensures_graph,
        Work.ensures_attempt]
      refine ⟨safe_node hh, fun n _ => ?_⟩
      split
      · simp only [Work.ensures_bind, Work.ensures_setGraph, Work.ensures_note]
        refine ih fun k hk => ?_
        rw [contains, modifyLayer, get?_modify]
        split
        · rw [Option.isSome_map]
          exact hhs k hk
        · exact hhs k hk
      · exact Work.ensures_report.mpr rfl

theorem weights_setPadding (padding : List (Nat × Nat)) (kind : LayerKind) :
    (kind.setPadding padding).weights = kind.weights := by
  cases kind <;> rfl

/-- A layer that takes padding over is no flattening one. -/
theorem keeps_padded {m : Node} {rank : Nat} (hm : m.layer.kind.padding?.any (·.1 == rank) = true)
    (padding : List (Nat × Nat)) (shapes : List Shape) : m.Keeps (m.padded padding shapes) where
  weights_eq := weights_setPadding padding m.layer.kind
  outputShapes_eq := rfl
  isSome_quant := rfl
  supplied := fun _ hkind => by
    cases hk : m.layer.kind with
    | conv1D c | conv2D c =>
        simp only [Node.padded, padded, hk, LayerKind.setPadding] at hkind
        contradiction
    | _ =>
        rw [hk] at hm
        contradiction

/-- Fusing a padding keeps what the layers had. -/
theorem inherits_of_fusePaddingAt {w v : Workspace} {h : Handle} {n : Node}
    (hg : w.graph.Linked) (hn : w.graph.get? h = some n) (hpreds : n.preds ≠ [])
    (hf : fusePaddingAt h w = .ok () v) : w.graph.Inherits v.graph := by
  obtain ⟨n', rank, padding, hn', _, hsuccs, _, _, hget⟩ := fusePaddingAt_cases hg hf
  obtain rfl : n = n' := Option.some.inj (hn.symm.trans hn')
  intro k m' hm'
  rw [hget k] at hm'
  split at hm'
  · contradiction
  · obtain ⟨m, hm, rfl⟩ := Option.map_eq_some_iff.mp hm'
    split
    · next hread =>
      obtain ⟨m₁, hm₁, hconv⟩ := hsuccs k hread
      obtain rfl : m = m₁ := Option.some.inj (hm.symm.trans hm₁)
      have hpadded := keeps_padded hconv padding n.layer.inputShapes
      have hbypass := keeps_bypass (h := h) hpreds (m.padded padding n.layer.inputShapes)
      refine ⟨⟨m, hm, ?_⟩, fun shape hshape => ⟨h, n, hn, hshape⟩⟩
      exact ⟨hpadded.weights_eq, hpadded.outputShapes_eq, hpadded.isSome_quant,
        fun hs => hbypass.supplied (hpadded.supplied hs)⟩
    · exact ⟨⟨m, hm, keeps_bypass hpreds m⟩, fun shape hshape => ⟨k, m, hm, hshape⟩⟩

/-- A padding is fused, left or reported; the graph stays framed. -/
theorem ensures_fusePaddingAt {w : Workspace} {h : Handle} {n : Node} (hg : w.graph.Framed)
    (hn : w.graph.get? h = some n) (hk : isPadding n.layer.kind = true) :
    Work.Ensures Large (fusePaddingAt h) w fun _ v => Step w.graph v.graph h := by
  have hpreds := (hg.inner (input?_ne_of_kind hg rfl hn hk) hn).2
  refine .of_ok (Q := fun _ _ => True) ?_ fun _ v hv =>
    ⟨inherits_of_fusePaddingAt hg.toLinked hn hpreds hv,
      .inr (bypassed_of_fusePaddingAt hg.toLinked hv)⟩
  obtain ⟨⟨rank, padding⟩, hpad⟩ := Option.isSome_iff_exists.mp hk
  simp only [fusePaddingAt, Work.ensures_bind, Work.ensures_node hn, hpad]
  have habsorb : Work.Ensures Large (absorbAll rank padding n.layer.inputShapes n.succs) w
      fun _ _ => True := ensures_absorbAll fun s hs => hg.succ_live hn hs
  refine habsorb.of_ok fun _ v hv => ?_
  obtain ⟨_, horder, hget⟩ := absorbAll_cases hv
  have hfirst : v.graph.input? ≠ some h := by
    rw [input?, horder]
    exact input?_ne_of_kind hg rfl hn hk
  -- The layer does not read its own output, so it is as it was when it is deleted.
  have hn' : v.graph.get? h = some n := by rw [hget h, if_neg (hg.not_mem_succs hn), hn]
  refine (ensures_delete (linked_of_absorbAll hg.toLinked hv) hn' hfirst).mono fun _ u _ => ?_
  exact Work.ensures_count.mpr trivial

/-! ### Folding an activation -/

theorem weights_setFusableActivation (a : Activation) (kind : LayerKind) :
    (kind.setFusableActivation a).weights = kind.weights := by
  cases kind <;> rfl

/-- Taking up an activation keeps the weights and shapes of a layer. -/
theorem keeps_activated (a : Activation) (q : Option QuantRecord) (n : Node) :
    n.Keeps (activated a q n) where
  weights_eq := weights_setFusableActivation a n.layer.kind
  outputShapes_eq := rfl
  isSome_quant := by cases q <;> cases hq : n.quant <;> simp [activated, hq]
  supplied := fun hn hkind => by
    refine hn ?_
    cases hk : n.layer.kind with
    | flatten => rfl
    | _ =>
        simp only [activated, hk, LayerKind.setFusableActivation] at hkind
        contradiction

/-- Merging two activations keeps what the layers had. -/
theorem Merged.inherits {g g' : Graph} {h q : Handle} {n m : Node} {outer inner f : Activation}
    (hm : Merged g g' h q n m outer inner f) (hg : g.Linked) : g.Inherits g' := by
  have hmodify : g.Inherits (g.modify q (activated f n.quant)) := .of_map fun k => by
    rw [get?_modify]
    split
    · exact .inr ⟨_, fun m => ⟨keeps_activated f n.quant m, rfl⟩, rfl⟩
    · exact .inr ⟨id, fun m => ⟨⟨rfl, rfl, rfl, id⟩, rfl⟩, Option.map_id'.symm⟩
  have hpreds : n.preds ≠ [] := by simp [hm.preds_eq]
  exact hmodify.trans (inherits_of_delete (linked_modify hg) (hm.get?_modify_activation hg) hpreds
    hm.delete_eq)

/-- Fusing one activation is a step of a pass. -/
theorem step_of_fuseActivationAt {w v : Workspace} {h : Handle} {count : Nat}
    (hg : w.graph.Linked) (hf : fuseActivationAt h w = .ok count v) :
    Step w.graph v.graph h := by
  rcases fuseActivationAt_cases hf with ⟨hsame, _⟩ | ⟨_, n, _, _, _, _, hm⟩
  · rw [hsame]
    exact ⟨.refl _, .inl rfl⟩
  · exact ⟨hm.inherits hg, .inr ⟨n, hm.bypassed hg⟩⟩

theorem exists_of_isClipping {kind : LayerKind} (hk : isClipping kind = true) :
    ∃ a, kind = .activation a := by
  cases kind with
  | activation a => exact ⟨a, rfl⟩
  | _ => contradiction

/-- Once an operand has been changed in place, the layer can be deleted. -/
theorem ensures_delete_modify {w : Workspace} {h q : Handle} {n : Node} {f : Node → Node}
    (hg : w.graph.Framed) (hn : w.graph.get? h = some n) (hk : isClipping n.layer.kind = true)
    (hq : q ∈ n.preds) (hf : ∀ n, (f n).preds = n.preds ∧ (f n).succs = n.succs) :
    Work.Ensures Large (Work.delete h) { w with graph := w.graph.modify q f } fun _ _ => True := by
  have hne : q ≠ h := fun he => hg.not_mem_preds hn (he ▸ hq)
  have hn' : (w.graph.modify q f).get? h = some n := by rw [get?_modify, if_neg hne, hn]
  have hfirst : (w.graph.modify q f).input? ≠ some h := by
    rw [input?, order_modify]
    exact input?_ne_of_kind hg rfl hn hk
  exact (ensures_delete (w := { w with graph := w.graph.modify q f }) (hg.toLinked.modify hf) hn'
    hfirst).mono fun _ _ _ => trivial

/-- An activation that clips is fused or left; the graph stays framed. -/
theorem ensures_fuseActivationAt {w : Workspace} {h : Handle} {n : Node} (hg : w.graph.Framed)
    (hn : w.graph.get? h = some n) (hk : isClipping n.layer.kind = true) :
    Work.Ensures Large (fuseActivationAt h) w fun _ v => Step w.graph v.graph h := by
  refine .of_ok (Q := fun _ _ => True) ?_ fun _ v hv => step_of_fuseActivationAt hg.toLinked hv
  obtain ⟨a, hkind⟩ := exists_of_isClipping hk
  simp only [fuseActivationAt, Work.ensures_bind, Work.ensures_graph, Work.ensures_attempt,
    node_eq_ok.mpr hn, safe_ok, Except.ok.injEq, forall_eq', true_and, hkind]
  rcases hpreds : n.preds with _ | ⟨q, _ | ⟨q', rest⟩⟩
  case cons.nil =>
    have hq : q ∈ n.preds := by rw [hpreds]; exact List.mem_singleton_self q
    simp only [Work.ensures_bind, Work.ensures_attempt]
    refine ⟨safe_node (hg.pred_live hn hq), fun producer _ => ?_⟩
    split
    · simp only [Work.ensures_bind, Work.ensures_note, Work.ensures_pure]
    · split
      · exact Work.ensures_report.mpr rfl
      · split
        · exact Work.ensures_report.mpr rfl
        · simp only [Work.ensures_bind, Work.ensures_setGraph, Work.ensures_count,
            Work.ensures_note, Work.ensures_pure]
          exact ensures_delete_modify hg hn hk hq fun _ => ⟨rfl, rfl⟩
  all_goals exact Work.ensures_report.mpr rfl

/-! ## Runs -/

/-- The computation is safe, and the graph that it leaves is framed and has inherited its
layers. -/
def Sound (Large : Graph → Prop) {α : Type} (x : Work α) (w : Workspace) : Prop :=
  Work.Ensures Large x w fun _ v => v.graph.Framed ∧ w.graph.Inherits v.graph

section Sequences

variable {α β : Type} {w : Workspace} {x : Work α} {f : α → Work β}

theorem sound_pure (hg : w.graph.Framed) (a : α) : Sound Large (pure a) w :=
  Work.ensures_pure.mpr ⟨hg, .refl _⟩

/-- Sound steps in sequence are sound. -/
theorem Sound.bind (hx : Sound Large x w) (hf : ∀ a v, v.graph.Framed → Sound Large (f a) v) :
    Sound Large (x >>= f) w := by
  refine Work.ensures_bind.mpr (hx.mono fun a v hv => ?_)
  exact (hf a v hv.1).mono fun _ _ hu => ⟨hu.1, hv.2.trans hu.2⟩

/-- What comes behind a step on the first of the layers that a pass works on. -/
theorem Targets.sound_bind {p : LayerKind → Bool} {h : Handle} {hs : List Handle}
    (ht : Targets p w.graph (h :: hs)) (hp : Steady p) (hinput : p .input = false)
    (hx : Work.Ensures Large x w fun _ v => Step w.graph v.graph h)
    (hf : ∀ a v, Targets p v.graph hs → Sound Large (f a) v) : Sound Large (x >>= f) w := by
  refine Work.ensures_bind.mpr (hx.mono fun a v hv => ?_)
  exact (hf a v (ht.step hp hinput hv)).mono fun _ _ hu => ⟨hu.1, hv.inherits.trans hu.2⟩

end Sequences

section Passes

variable {w : Workspace} {hs : List Handle}

/-- Removing the targets one after another is sound. -/
theorem sound_removeAll {p : LayerKind → Bool} (hp : Steady p) (hinput : p .input = false)
    (ht : Targets p w.graph hs) : Sound Large (removeAll hs) w := by
  induction hs generalizing w with
  | nil => exact sound_pure ht.framed ()
  | cons h hs ih =>
      obtain ⟨n, hn, hk⟩ := ht.exists_get? h List.mem_cons_self
      have hg := ht.framed
      have hfirst := input?_ne_of_kind hg hinput hn hk
      refine ht.sound_bind hp hinput ((ensures_delete hg.toLinked hn hfirst).mono fun _ v hv => ?_)
        fun _ v hv => ?_
      · exact step_of_delete hg hv
      · exact Work.ensures_bind.mpr (Work.ensures_count.mpr (ih hv))

theorem sound_fusePaddingAll (ht : Targets isPadding w.graph hs) :
    Sound Large (fusePaddingAll hs) w := by
  induction hs generalizing w with
  | nil => exact sound_pure ht.framed ()
  | cons h hs ih =>
      obtain ⟨n, hn, hk⟩ := ht.exists_get? h List.mem_cons_self
      exact ht.sound_bind steady_isPadding rfl (ensures_fusePaddingAt ht.framed hn hk)
        fun _ v hv => ih hv

theorem sound_fuseActivationAll (ht : Targets isClipping w.graph hs) :
    Sound Large (fuseActivationAll hs) w := by
  induction hs generalizing w with
  | nil => exact sound_pure ht.framed 0
  | cons h hs ih =>
      obtain ⟨n, hn, hk⟩ := ht.exists_get? h List.mem_cons_self
      refine ht.sound_bind steady_isClipping rfl (ensures_fuseActivationAt ht.framed hn hk)
        fun one v hv => ?_
      exact (ih hv).bind fun rest u hu => sound_pure hu (one + rest)

variable (hg : w.graph.Framed)

include hg

/-- A pass looks at every layer to choose those it works on. -/
theorem sound_handlesWhere_bind {α : Type} {p : LayerKind → Bool} {f : List Handle → Work α}
    (hf : Targets p w.graph (w.graph.handlesWhere p) → Sound Large (f (w.graph.handlesWhere p)) w) :
    Sound Large (Work.handlesWhere p >>= f) w := by
  refine Work.ensures_bind.mpr ?_
  rw [Work.Ensures, handlesWhere_apply (fun _ hh => hg.exists_get? hh) p]
  exact hf (targets_handlesWhere hg p)

theorem sound_removeWhere {p : LayerKind → Bool} (hp : Steady p) (hinput : p .input = false) :
    Sound Large (removeWhere p) w :=
  sound_handlesWhere_bind hg fun ht =>
    (sound_removeAll hp hinput ht).bind fun _ _ hv => sound_pure hv _

theorem sound_fusePadding : Sound Large fusePadding w :=
  sound_handlesWhere_bind hg fun ht =>
    (sound_fusePaddingAll ht).bind fun _ _ hv => sound_pure hv _

theorem sound_fuseActivation : Sound Large fuseActivation w :=
  sound_handlesWhere_bind hg fun ht => sound_fuseActivationAll ht

omit hg in
/-- New names are found for all layers of the graph. -/
theorem safe_newNames {g : Graph} {taken : List String} {hs : List Handle}
    (hhs : ∀ h ∈ hs, ∃ n, g.get? h = some n) : Safe large (newNames g taken hs) := by
  induction hs generalizing taken with
  | nil => exact safe_ok []
  | cons h hs ih =>
      obtain ⟨⟨n, hn⟩, hhs⟩ := List.forall_mem_cons.mp hhs
      simp only [newNames, node_eq_ok.mpr hn]
      split
      · exact safe_error.mpr rfl
      · split
        · exact safe_error.mpr rfl
        · have hrest : Safe large (newNames g (identifier n.name :: taken) hs) := ih hhs
          split
          · next f hf => exact safe_error.mpr (hrest f hf)
          · exact safe_ok _

theorem sound_renameLayers : Sound Large renameLayers w := by
  refine .of_ok (Q := fun _ _ => True) ?_ fun count v hv => ?_
  · simp only [renameLayers, Work.ensures_bind, Work.ensures_graph, Work.ensures_attempt]
    refine ⟨safe_newNames fun _ hh => hg.exists_get? hh, fun renames _ => ?_⟩
    obtain ⟨v, hv, _⟩ := renameAll_apply renames w
    rw [Work.Ensures, hv]
    exact Work.ensures_pure.mpr trivial
  · refine ⟨framed_renameLayers hg hv, .of_map fun k => .inr ?_⟩
    exact ⟨fun n => n.named (identifier n.name), fun _ => ⟨⟨rfl, rfl, rfl, id⟩, rfl⟩,
      get?_renameLayers hg.toLinked hv k⟩

/-- Every pass is sound. -/
theorem sound_of_mem_passes {p : Pass} (hp : p ∈ passes) : Sound Large p.run w := by
  simp only [passes, List.mem_cons, List.not_mem_nil, or_false] at hp
  rcases hp with rfl | rfl | rfl | rfl | rfl
  · exact sound_removeWhere hg steady_isIdentity rfl
  · exact sound_removeWhere hg steady_isDropout rfl
  · exact sound_fusePadding hg
  · exact sound_fuseActivation hg
  · exact sound_renameLayers hg

/-- The order is not disturbed by a pass, so that the check behind it passes. -/
theorem ensures_requireOrder : Work.Ensures Large requireOrder w fun _ v => v = w := by
  rw [Work.Ensures, requireOrder_eq_ok.mpr ⟨hg.isTopological, rfl⟩]

/-- A run of any of the passes is sound. -/
theorem sound_executeAll {ps : List Pass} (hps : ∀ p ∈ ps, p ∈ passes) :
    Sound Large (executeAll ps) w := by
  induction ps generalizing w with
  | nil => exact sound_pure hg ()
  | cons p ps ih =>
      obtain ⟨hp, hps⟩ := List.forall_mem_cons.mp hps
      have hexecute : Sound Large p.execute w := by
        simp only [Sound, Pass.execute, Work.ensures_bind, Work.ensures_graph, Work.ensures_note,
          Work.ensures_count]
        refine (sound_of_mem_passes hg hp).mono fun _ v hv => ?_
        refine (ensures_requireOrder hv.1).mono fun _ u hu => ?_
        rw [hu]
        exact hv
      exact hexecute.bind fun _ v hv => ih hv hps

end Passes

/-- Both ends of every edge are there. -/
theorem safe_edgeNames {g : Graph} (hg : g.Linked) : Safe large g.edgeNames := by
  refine safe_bind.mpr ⟨safe_nodes hg, fun ns hns => safe_bind.mpr ⟨?_, fun _ _ => safe_ok _⟩⟩
  refine safe_mapM fun n hn => safe_mapM fun s hs => safe_bind.mpr ⟨?_, fun _ _ => safe_ok _⟩
  obtain ⟨h, hh⟩ := exists_of_mem_mapM hns hn
  exact safe_node (hg.succ_live (node_eq_ok.mp hh) hs)

/-- Simplification is safe, and what it leaves in the graph has been there. -/
theorem sound_optimize {w : Workspace} (hg : w.graph.Framed) : Sound Large optimize w := by
  refine (sound_executeAll hg fun p hp => hp).bind fun _ v hv => ?_
  simp only [Sound, Work.ensures_bind, Work.ensures_graph, Work.ensures_attempt,
    Work.ensures_note]
  exact ⟨safe_edgeNames hv.toLinked, fun _ _ => ⟨hv, .refl _⟩⟩

/-- An optimized graph has what the layers had before. -/
theorem inherits_of_optimize {w v : Workspace} (hg : w.graph.Framed)
    (ho : optimize w = .ok () v) : w.graph.Inherits v.graph := by
  have hsound : Sound (fun _ => False) optimize w := sound_optimize hg
  exact ((Work.ensures_iff.mp hsound).2 () v ho).2

end Simplify

end NeuralC
