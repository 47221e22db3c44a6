import NeuralC.Proofs.Simplify.Activation
import NeuralC.Proofs.Simplify.Padding
import NeuralC.Proofs.Simplify.Remove

/-!
# NeuralC.Proofs.Simplify.Bypass

What the passes that shrink a graph have in common.  Removing a layer, folding a
padding layer and folding an activation all take one node out and lead its edges
around it; what else they do to the other layers, they do to a padding, to input
shapes or to an activation.  `Bypassed` is that step and `Shrinks` a run of
steps.

The layers of a kind that such a step cannot turn into another are those that
were there, without the one that went (`Shrinks.handlesWhere_eq`).
-/

namespace NeuralC

/-! ## Layers that take something over -/

/-- The layer `l'` is `l` with, at most, other input shapes and another padding or
activation. -/
structure Layer.Reworked (l l' : Layer) : Prop where
  name_eq : l'.name = l.name
  kind_eq : l'.kind = l.kind ∨ (∃ padding, l'.kind = l.kind.setPadding padding) ∨
    ∃ a, l'.kind = l.kind.setFusableActivation a

theorem Layer.Reworked.refl (l : Layer) : l.Reworked l := ⟨rfl, .inl rfl⟩

namespace Simplify

open NeuralC.Graph

/-- Whether a property of kinds does not depend on paddings and on the activations that
can be merged into. -/
structure Steady (p : LayerKind → Bool) : Prop where
  setPadding_eq : ∀ padding kind, p (LayerKind.setPadding padding kind) = p kind
  setFusableActivation_eq : ∀ a kind, p (LayerKind.setFusableActivation a kind) = p kind

theorem steady_isIdentity : Steady isIdentity where
  setPadding_eq := by intro padding kind; cases kind <;> rfl
  setFusableActivation_eq := by intro a kind; cases kind <;> rfl

theorem steady_isDropout : Steady isDropout where
  setPadding_eq := by intro padding kind; cases kind <;> rfl
  setFusableActivation_eq := by intro a kind; cases kind <;> rfl

theorem steady_isPadding : Steady isPadding where
  setPadding_eq := by intro padding kind; cases kind <;> rfl
  setFusableActivation_eq := by intro a kind; cases kind <;> rfl

theorem steady_isClipping : Steady isClipping where
  setPadding_eq := by intro padding kind; cases kind <;> rfl
  setFusableActivation_eq := by intro a kind; cases kind <;> rfl

/-- What is steady is not changed by reworking a layer. -/
theorem Steady.reworked {p : LayerKind → Bool} (hp : Steady p) {l l' : Layer}
    (hl : l.Reworked l') : p l'.kind = p l.kind := by
  rcases hl.kind_eq with hk | ⟨padding, hk⟩ | ⟨a, hk⟩
  · rw [hk]
  · rw [hk, hp.setPadding_eq]
  · rw [hk, hp.setFusableActivation_eq]

/-- Reworking makes no input and takes none away. -/
theorem isInput_reworked {l l' : Layer} (hl : l.Reworked l') : l'.isInput = l.isInput := by
  rcases hl.kind_eq with hk | ⟨padding, hk⟩ | ⟨a, hk⟩
  · rw [Layer.isInput, Layer.isInput, hk]
  · rw [Layer.isInput, Layer.isInput, hk]
    cases l.kind <;> rfl
  · rw [Layer.isInput, Layer.isInput, hk]
    cases l.kind <;> rfl

/-! ## One step -/

/-- The graph `g'` is `g` without the node `n` of `h`: edges lead around it, and other
layers may have taken something over. -/
structure Bypassed (g g' : Graph) (h : Handle) (n : Node) : Prop where
  get?_gone : g.get? h = some n
  linked : g'.Linked
  order_eq : g'.order = g.order.erase h
  kept : ∀ {k m}, k ≠ h → g.get? k = some m → ∃ m', g'.get? k = some m' ∧
    m.layer.Reworked m'.layer ∧ m'.preds = substitute h n.preds m.preds ∧
    m'.succs = substitute h n.succs m.succs

namespace Bypassed

variable {g g' : Graph} {h : Handle} {n : Node} (hb : Bypassed g g' h n) (hg : g.Linked)

include hb hg

/-- Every node of the smaller graph has been one of the larger. -/
theorem origin {k : Handle} {m' : Node} (hm' : g'.get? k = some m') :
    k ≠ h ∧ ∃ m, g.get? k = some m ∧ m.layer.Reworked m'.layer ∧
      m'.preds = substitute h n.preds m.preds ∧ m'.succs = substitute h n.succs m.succs := by
  have hk := hb.linked.mem_of_get? hm'
  rw [hb.order_eq, hg.nodup.mem_erase_iff] at hk
  obtain ⟨m, hm⟩ := hg.exists_get? hk.2
  obtain ⟨m'', hm'', hrest⟩ := hb.kept hk.1 hm
  rw [hm'] at hm''
  injection hm'' with hm''
  subst hm''
  exact ⟨hk.1, m, hm, hrest⟩

/-- A choice by kind loses the layer that is bypassed and no other. -/
theorem handlesWhere_eq {p : LayerKind → Bool} (hp : Steady p) :
    g'.handlesWhere p = (g.handlesWhere p).erase h := by
  have hnd : (g.handlesWhere p).Nodup := hg.nodup.filter _
  rw [hnd.erase_eq_filter, handlesWhere, handlesWhere, hb.order_eq, hg.nodup.erase_eq_filter,
    List.filter_filter, List.filter_filter]
  refine List.filter_congr fun k hk => ?_
  obtain ⟨m, hm⟩ := hg.exists_get? hk
  by_cases hkh : k = h
  · simp [hkh]
  · obtain ⟨m', hm', hl, _⟩ := hb.kept hkh hm
    simp [hm, hm', hp.reworked hl, Bool.and_comm]

end Bypassed

/-- Deleting a node takes it out and does nothing else. -/
theorem bypassed_of_delete {g g' : Graph} {h : Handle} (hg : g.Linked)
    (hd : g.delete h = .ok g') : ∃ n, Bypassed g g' h n := by
  obtain ⟨n, hn, _, _, _⟩ := delete_cases hd
  refine ⟨n, hn, hg.delete hd, order_delete hd, fun {k m} hk hm => ?_⟩
  refine ⟨Node.bypass h n m, ?_, Layer.Reworked.refl _, rfl, rfl⟩
  rw [hg.get?_delete hd hn, if_neg hk, hm, Option.map_some]

/-- Folding a padding layer takes it out; its readers take over its padding. -/
theorem bypassed_of_fusePaddingAt {h : Handle} {w w' : Workspace} (hg : w.graph.Linked)
    (hf : fusePaddingAt h w = .ok () w') : ∃ n, Bypassed w.graph w'.graph h n := by
  obtain ⟨n, _, padding, hn, _, _, hlinked, horder, hget⟩ := fusePaddingAt_cases hg hf
  refine ⟨n, hn, hlinked, horder, fun {k m} hk hm => ?_⟩
  have hm' := hget k
  rw [if_neg hk, hm, Option.map_some] at hm'
  by_cases hs : k ∈ n.succs
  · rw [if_pos hs] at hm'
    exact ⟨_, hm', ⟨rfl, .inr (.inl ⟨padding, rfl⟩)⟩, rfl, rfl⟩
  · rw [if_neg hs] at hm'
    exact ⟨_, hm', Layer.Reworked.refl _, rfl, rfl⟩

/-- Folding an activation takes it out; its producer takes over the composed one. -/
theorem Merged.bypassed {g g' : Graph} {h p : Handle} {n m : Node} {outer inner f : Activation}
    (hm : Merged g g' h p n m outer inner f) (hg : g.Linked) : Bypassed g g' h n := by
  refine ⟨hm.get?_activation, hm.linked hg, hm.order_eq, fun {k r} hk hr => ?_⟩
  by_cases hkp : k = p
  · subst hkp
    rw [hm.get?_producer] at hr
    injection hr with hr
    subst hr
    exact ⟨_, hm.get?_merged hg, ⟨rfl, .inr (.inr ⟨f, rfl⟩)⟩, rfl, rfl⟩
  · exact ⟨_, hm.get?_kept hg hk hkp hr, Layer.Reworked.refl _, rfl, rfl⟩

/-! ## Several steps -/

/-- The graph `g'` is `g` without some nodes, taken out one after another. -/
inductive Shrinks : Graph → Graph → List Handle → Prop where
  | nil (g : Graph) : Shrinks g g []
  | cons {g g₁ g' : Graph} {h : Handle} {n : Node} {hs : List Handle} :
    Bypassed g g₁ h n → Shrinks g₁ g' hs → Shrinks g g' (h :: hs)

namespace Shrinks

variable {g g' : Graph} {hs : List Handle}

/-- A graph that shrinks stays linked. -/
theorem linked (hs' : Shrinks g g' hs) (hg : g.Linked) : g'.Linked := by
  induction hs' with
  | nil g => exact hg
  | cons hb _ ih => exact ih hb.linked

theorem handlesWhere_eq (hs' : Shrinks g g' hs) (hg : g.Linked) {p : LayerKind → Bool}
    (hp : Steady p) : g'.handlesWhere p = (g.handlesWhere p).filter (· ∉ hs) := by
  induction hs' with
  | nil g => simp
  | @cons g g₁ g' h n hs hb _ ih =>
      have hnd : (g.handlesWhere p).Nodup := hg.nodup.filter _
      rw [ih hb.linked, hb.handlesWhere_eq hg hp, hnd.erase_eq_filter, List.filter_filter]
      refine List.filter_congr fun k _ => ?_
      by_cases hk : k = h <;> simp [hk]

/-- One shrinking after another is a shrinking. -/
theorem trans {g₁ : Graph} {hs₁ : List Handle} (hs' : Shrinks g g₁ hs)
    (hs₁' : Shrinks g₁ g' hs₁) : Shrinks g g' (hs ++ hs₁) := by
  induction hs' with
  | nil g => exact hs₁'
  | cons hb _ ih => exact .cons hb (ih hs₁')

/-- A kind of which there is no layer stays away. -/
theorem handlesWhere_eq_nil_of_eq_nil {p : LayerKind → Bool} (hs' : Shrinks g g' hs)
    (hg : g.Linked) (hp : Steady p) (hnil : g.handlesWhere p = []) : g'.handlesWhere p = [] := by
  rw [hs'.handlesWhere_eq hg hp, hnil, List.filter_nil]

/-- When all layers of a kind are taken out, none is left. -/
theorem handlesWhere_eq_nil {p : LayerKind → Bool} (hs' : Shrinks g g' (g.handlesWhere p))
    (hg : g.Linked) (hp : Steady p) : g'.handlesWhere p = [] := by
  rw [hs'.handlesWhere_eq hg hp, List.filter_eq_nil_iff]
  simp

end Shrinks

/-- Removing layers of some kinds takes just these out. -/
theorem shrinks_of_removeAll {hs : List Handle} {w w' : Workspace} (hg : w.graph.Linked)
    (hr : removeAll hs w = .ok () w') : Shrinks w.graph w'.graph hs := by
  induction hs generalizing w with
  | nil =>
      injection hr with _ hr
      rw [hr]
      exact .nil _
  | cons h hs ih =>
      obtain ⟨v, hd, hr⟩ := removeAll_cons hr
      obtain ⟨n, hb⟩ := bypassed_of_delete hg hd
      exact .cons hb (ih hb.linked hr)

/-- Removing layers by kind shrinks the graph by these layers. -/
theorem shrinks_of_removeWhere {p : LayerKind → Bool} {count : Nat} {w w' : Workspace}
    (hg : w.graph.Linked) (hr : removeWhere p w = .ok count w') :
    Shrinks w.graph w'.graph (w.graph.handlesWhere p) :=
  shrinks_of_removeAll hg (sweep_eq_ok hr)

theorem shrinks_of_fusePaddingAll {hs : List Handle} {w w' : Workspace} (hg : w.graph.Linked)
    (hf : fusePaddingAll hs w = .ok () w') : Shrinks w.graph w'.graph hs := by
  induction hs generalizing w with
  | nil =>
      injection hf with _ hf
      rw [hf]
      exact .nil _
  | cons h hs ih =>
      obtain ⟨_, v, hat, hf⟩ := Work.bind_eq_ok.mp hf
      obtain ⟨n, hb⟩ := bypassed_of_fusePaddingAt hg hat
      exact .cons hb (ih hb.linked hf)

/-- Folding padding shrinks the graph by its padding layers. -/
theorem shrinks_of_fusePadding {count : Nat} {w w' : Workspace} (hg : w.graph.Linked)
    (hf : fusePadding w = .ok count w') :
    Shrinks w.graph w'.graph (w.graph.handlesWhere isPadding) :=
  shrinks_of_fusePaddingAll hg (sweep_eq_ok hf)

end Simplify

end NeuralC
