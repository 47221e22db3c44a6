import Mathlib.Algebra.Field.Rat
import Mathlib.Algebra.Order.Ring.Rat
import NeuralC.Proofs.Evaluate.Exact
import NeuralC.Proofs.Evaluate.Solution
import NeuralC.Proofs.Graph.Histories
import NeuralC.Proofs.Simplify.Remove
import NeuralC.Simplify.Activation

/-!
# NeuralC.Proofs.Simplify.Activation

Folding clipping activations keeps what a graph computes, in exact numbers.

`Merged` says what folding one activation has checked and changed.  Its producer
feeds nothing else, so it is the only layer that reads otherwise than before:
the graph computes the clipped values there, where the activation computed them,
and the same values everywhere else (`Merged.replaces`).  The activations that
are still to be folded stay as they are, and the graph keeps a single last
layer, so the step can be taken again (`evaluate_fuseActivationAll`).
-/

namespace NeuralC.Simplify

open NeuralC.Graph NeuralC.Evaluate

/-! ## One activation -/

/-- The activation `h` of `g` is folded into its producer `p` in `g'`. -/
structure Merged (g g' : Graph) (h p : Handle) (n m : Node) (outer inner f : Activation) :
    Prop where
  get?_activation : g.get? h = some n
  kind_eq : n.layer.kind = .activation outer
  preds_eq : n.preds = [p]
  get?_producer : g.get? p = some m
  /-- The producer has no other readers. -/
  succs_le : m.succs.length ≤ 1
  fusable : m.layer.kind.fusableActivation? = some inner
  compose_eq : inner.compose outer = some f
  delete_eq : (g.modify p (activated f n.quant)).delete h = .ok g'

/-- The graph once the producer is changed and the activation deleted. -/
theorem graph_of_merge {g : Graph} {h : Handle} {f : Statistics → Statistics} {text : String}
    {count : Nat} {w w' : Workspace}
    (hm : (do
      Work.setGraph g
      Work.delete h
      Work.count f
      Work.note .debug text
      return 1 : Work Nat) w = .ok count w') : g.delete h = .ok w'.graph := by
  obtain ⟨_, v, hset, hm⟩ := Work.bind_eq_ok.mp hm
  injection hset with _ hset
  subst hset
  obtain ⟨_, v, hdelete, hm⟩ := Work.bind_eq_ok.mp hm
  obtain ⟨g', hg', rfl⟩ := Work.graph_of_delete hdelete
  injection hm with _ hm
  subst hm
  exact hg'

/-- The activation `h` has one operand, which other layers read too. -/
def Standalone (g : Graph) (h : Handle) : Prop :=
  ∃ n p m, g.get? h = some n ∧ n.preds = [p] ∧ g.get? p = some m ∧ 1 < m.succs.length

/-- What a step has checked and changed: an activation that stands alone leaves the graph as
it was. -/
theorem fuseActivationAt_cases {h : Handle} {count : Nat} {w w' : Workspace}
    (hf : fuseActivationAt h w = .ok count w') :
    (w'.graph = w.graph ∧ Standalone w.graph h) ∨
      ∃ p n m outer inner f, Merged w.graph w'.graph h p n m outer inner f := by
  obtain ⟨g, v, hgraph, hrest⟩ := Work.bind_eq_ok.mp hf
  injection hgraph with hgraph hv
  subst hgraph hv
  obtain ⟨n, v, hnode, hrest⟩ := Work.bind_eq_ok.mp hrest
  obtain ⟨hn, rfl⟩ := Work.attempt_eq_ok.mp hnode
  cases hk : n.layer.kind with
  | activation outer =>
      match hp : n.preds with
      | [] =>
          simp only [hk, hp] at hrest
          contradiction
      | [p] =>
          simp only [hk, hp] at hrest
          obtain ⟨m, v, hnode, hrest⟩ := Work.bind_eq_ok.mp hrest
          obtain ⟨hm, rfl⟩ := Work.attempt_eq_ok.mp hnode
          split at hrest
          · next hlen =>
              obtain ⟨_, v, hnote, hrest⟩ := Work.bind_eq_ok.mp hrest
              injection hnote with _ hnote
              injection hrest with _ hrest
              subst hnote hrest
              exact .inl ⟨rfl, n, p, m, node_eq_ok.mp hn, hp, node_eq_ok.mp hm, hlen⟩
          · next hlen =>
              cases hi : m.layer.kind.fusableActivation? with
              | none =>
                  simp only [hi] at hrest
                  contradiction
              | some inner =>
                  simp only [hi] at hrest
                  cases hc : inner.compose outer with
                  | none =>
                      simp only [hc] at hrest
                      contradiction
                  | some f =>
                      simp only [hc] at hrest
                      have hdelete := graph_of_merge hrest
                      exact .inr ⟨p, n, m, outer, inner, f, node_eq_ok.mp hn, hk, hp,
                        node_eq_ok.mp hm, Nat.not_lt.mp hlen, hi, hc, hdelete⟩
      | p :: q :: ps =>
          simp only [hk, hp] at hrest
          contradiction
  | _ =>
      simp only [hk] at hrest
      contradiction

/-- The outputs of a layer clipped, and those of all others left alone. -/
def clipAt {K : Type} [Field K] [LinearOrder K] (p : Handle) (f : Activation) (x : Handle) :
    List K → List K :=
  if x = p then List.map (clip f) else id

section

variable {K : Type} [Field K] [LinearOrder K] {p x : Handle} {f : Activation}

@[simp] theorem clipAt_self : clipAt p f p = List.map (clip f : K → K) := if_pos rfl

theorem clipAt_of_ne (hx : x ≠ p) : clipAt p f x = (id : List K → List K) := if_neg hx

end

namespace Merged

variable {g g' : Graph} {h p : Handle} {n m : Node} {outer inner f : Activation}
  (hm : Merged g g' h p n m outer inner f) (hg : g.Linked)

include hm hg

/-- The activation and its producer are two layers. -/
theorem producer_ne : p ≠ h := by
  intro he
  have hself := hg.not_mem_preds hm.get?_activation
  rw [hm.preds_eq, he] at hself
  exact hself (List.mem_singleton_self h)

/-- The producer is read by the activation alone. -/
theorem succs_eq : m.succs = [h] := by
  have hread : p ∈ n.preds := by simp [hm.preds_eq]
  have hmem := (hg.mem_succs_iff hm.get?_producer hm.get?_activation).mpr hread
  obtain ⟨s, hs⟩ := List.length_eq_one_iff.mp
    (Nat.le_antisymm hm.succs_le (List.length_pos_of_mem hmem))
  rw [hs, List.mem_singleton] at hmem
  rw [hs, hmem]

/-- No layer but the activation reads the producer. -/
theorem not_mem_preds {k : Handle} {r : Node} (hk : k ≠ h) (hr : g.get? k = some r) :
    p ∉ r.preds := by
  intro hp
  have hmem := (hg.mem_succs_iff hm.get?_producer hr).mpr hp
  rw [hm.succs_eq hg, List.mem_singleton] at hmem
  exact hk hmem

omit hm in
/-- Changing the producer keeps the graph linked. -/
theorem linked_modify : (g.modify p (activated f n.quant)).Linked :=
  hg.modify fun _ => ⟨rfl, rfl⟩

theorem get?_modify_activation : (g.modify p (activated f n.quant)).get? h = some n := by
  rw [get?_modify, if_neg (hm.producer_ne hg), hm.get?_activation]

/-- Folding an activation keeps the graph linked. -/
theorem linked : g'.Linked := (linked_modify hg).delete hm.delete_eq

/-- Folding an activation leaves one sink. -/
theorem oneSink (hs : g.OneSink) : g'.OneSink := by
  have hs₁ : (g.modify p (activated f n.quant)).OneSink := hs.modify fun _ => rfl
  exact hs₁.delete (linked_modify hg) hm.delete_eq (hm.get?_modify_activation hg) hm.preds_eq

/-- Where the activation was the last layer, its producer is now. -/
theorem output?_eq (hs : g.OneSink) :
    g'.output? = g.output?.map fun o => if o = h then p else o := by
  have hs₁ : (g.modify p (activated f n.quant)).OneSink := hs.modify fun _ => rfl
  have hout := hs₁.output?_delete (linked_modify hg) hm.delete_eq
    (hm.get?_modify_activation hg) hm.preds_eq
  exact hout

omit hg in
/-- The activation is gone from the order. -/
theorem order_eq : g'.order = g.order.erase h := by
  have horder := order_delete hm.delete_eq
  rwa [order_modify] at horder

/-- The producer has the composed activation. -/
theorem get?_merged : g'.get? p = some (Node.bypass h n (activated f n.quant m)) := by
  rw [(linked_modify hg).get?_delete hm.delete_eq (hm.get?_modify_activation hg),
    if_neg (hm.producer_ne hg), get?_modify, if_pos rfl, hm.get?_producer]
  rfl

/-- In the other nodes, edges lead around the activation. -/
theorem get?_kept {k : Handle} {r : Node} (hk : k ≠ h) (hkp : k ≠ p) (hr : g.get? k = some r) :
    g'.get? k = some (Node.bypass h n r) := by
  rw [(linked_modify hg).get?_delete hm.delete_eq (hm.get?_modify_activation hg),
    if_neg hk, get?_modify, if_neg hkp.symm, hr]
  rfl

/-- An activation that stays was there, and is what it was, for no activation is a
producer. -/
theorem isClipping_of_get? {k : Handle} {r' : Node} (hr' : g'.get? k = some r')
    (hclip : ∀ r, g.get? k = some r → isClipping r.layer.kind = true) :
    isClipping r'.layer.kind = true := by
  have hmem := (hm.linked hg).mem_of_get? hr'
  rw [hm.order_eq, hg.nodup.mem_erase_iff] at hmem
  obtain ⟨r, hr⟩ := hg.exists_get? hmem.2
  have hkp : k ≠ p := by
    rintro rfl
    have hfusable := hm.fusable
    have hkind := hclip m hm.get?_producer
    cases hk : m.layer.kind with
    | activation a =>
        rw [hk] at hfusable
        contradiction
    | _ =>
        rw [hk] at hkind
        contradiction
  rw [hm.get?_kept hg hmem.1 hkp hr] at hr'
  injection hr' with hr'
  rw [← hr']
  exact hclip r hr

section

variable {K : Type} [Field K] [LinearOrder K] {exp : K → K} {value : Element → K} {lowest : K}
  {sample : List K} {v : Outputs K}

/-- A layer that stays has the operands it had: where it read the activation, it reads
the clipped values of the producer. -/
theorem result_kept {k : Handle} {r : Node} (hk : k ≠ h) (hr : g.get? k = some r)
    (hread : h ∈ r.preds → v h = clipAt p outer p (v p)) :
    result (.exact exp value lowest) sample (fun x => clipAt p outer x (v x)) (Node.bypass h n r) =
      result (.exact exp value lowest) sample v r := by
  refine result_bypass hm.preds_eq fun x hx => ?_
  by_cases hxh : x = h
  · subst hxh
    simp [hread hx]
  · have hxp : x ≠ p := fun he => hm.not_mem_preds hg hk hr (he ▸ hx)
    simp [hxh, clipAt_of_ne hxp]

variable [IsStrictOrderedRing K] (ho : outer = .relu ∨ outer = .relu6)

include ho

/-- The producer gives clipped values. -/
theorem result_merged :
    result (.exact exp value lowest) sample (fun x => clipAt p outer x (v x))
        (Node.bypass h n (activated f n.quant m)) =
      (result (.exact exp value lowest) sample v m).map (clipAt p outer p) := by
  have hread : h ∉ m.preds := by
    intro hp
    have hback : g.Before h p := hg.forward hm.get?_producer hp
    have hfront : g.Before p h := hg.forward hm.get?_activation (by simp [hm.preds_eq])
    exact before_irrefl hg.nodup h (before_trans hg.nodup hback hfront)
  have hpreds : (Node.bypass h n (activated f n.quant m)).preds = m.preds :=
    substitute_of_not_mem hread
  have hv : ∀ x ∈ m.preds, clipAt p outer x (v x) = v x := by
    intro x hx
    have hxp : x ≠ p := fun he => hg.not_mem_preds hm.get?_producer (he ▸ hx)
    rw [clipAt_of_ne hxp, id]
  rw [result, hpreds, List.map_congr_left hv, result, clipAt_self]
  exact layer_setFusableActivation ho hm.compose_eq hm.fusable sample _

/-- The graph does without the activation. -/
theorem replaces (hs : g.OneSink) :
    Replaces (.exact exp value lowest) sample g g' h p (clipAt p outer) where
  order_eq := hm.order_eq
  gone := by
    intro r v hr
    rw [hm.get?_activation] at hr
    injection hr with hr
    have hpoint : Pointwise outer := .inr ho
    simp [← hr, result, layer, hm.kind_eq, hm.preds_eq, activate_of_pointwise hpoint]
  kept := by
    intro k r v hk hr hread
    by_cases hkp : k = p
    · subst hkp
      rw [hm.get?_producer] at hr
      injection hr with hr
      rw [← hr]
      exact ⟨_, hm.get?_merged hg, hm.result_merged hg ho⟩
    · refine ⟨_, hm.get?_kept hg hk hkp hr, ?_⟩
      rw [hm.result_kept hg hk hr hread, clipAt_of_ne hkp, Except.map_id, id]
  output?_eq := hm.output?_eq hg hs
  post_output := by
    intro o xs hout _
    have hop : o ≠ p := by
      rintro rfl
      have hlast := hg.succs_last hout hm.get?_producer
      rw [hm.succs_eq hg] at hlast
      contradiction
    rw [clipAt_of_ne hop, id]

end

end Merged

/-! ## All activations -/

/-- The pass works on the activations that it chose first. -/
theorem fuseActivationAll_of_fuseActivation {count : Nat} {w w' : Workspace}
    (hf : fuseActivation w = .ok count w') :
    fuseActivationAll (w.graph.handlesWhere isClipping) w = .ok count w' := by
  obtain ⟨ts, v, hwhere, hall⟩ := Work.bind_eq_ok.mp hf
  obtain ⟨rfl, rfl⟩ := handlesWhere_of_eq_ok hwhere
  exact hall

/-- What a run keeps, with the activations that are still to come: the next one stands alone and
is passed over, or it is merged into its producer. -/
theorem fuseActivationAll_induction {P : List Handle → Graph → Prop}
    (halone : ∀ {t ts g}, P (t :: ts) g → Standalone g t → P ts g)
    (hmerge : ∀ {t ts g g' p n m outer inner f}, P (t :: ts) g →
      Merged g g' t p n m outer inner f → P ts g')
    {ts : List Handle} {count : Nat} {w w' : Workspace} (hP : P ts w.graph)
    (hf : fuseActivationAll ts w = .ok count w') : P [] w'.graph := by
  induction ts generalizing w count with
  | nil =>
      injection hf with _ hf
      exact hf ▸ hP
  | cons t ts ih =>
      obtain ⟨_, v, hone, hf⟩ := Work.bind_eq_ok.mp hf
      obtain ⟨_, v', hmore, hf⟩ := Work.bind_eq_ok.mp hf
      injection hf with _ hf
      subst hf
      rcases fuseActivationAt_cases hone with ⟨hsame, hstands⟩ | ⟨_, _, _, _, _, _, hm⟩
      · exact ih (hsame ▸ halone hP hstands) hmore
      · exact ih (hmerge hP hm) hmore

/-- A graph in which the layers `ts` are activations still to be folded. -/
structure Ready (g : Graph) (ts : List Handle) : Prop where
  linked : g.Linked
  oneSink : g.OneSink
  clipping : ∀ t ∈ ts, ∀ n, g.get? t = some n → isClipping n.layer.kind = true

theorem Ready.tail {g : Graph} {t : Handle} {ts : List Handle} (hr : Ready g (t :: ts)) :
    Ready g ts :=
  ⟨hr.linked, hr.oneSink, fun k hk => hr.clipping k (List.mem_cons_of_mem t hk)⟩

/-- The activations behind one that is folded can be folded still. -/
theorem Ready.merge {g g' : Graph} {t p : Handle} {ts : List Handle} {n m : Node}
    {outer inner f : Activation} (hr : Ready g (t :: ts))
    (hm : Merged g g' t p n m outer inner f) : Ready g' ts :=
  ⟨hm.linked hr.linked, hm.oneSink hr.linked hr.oneSink, fun k hk _ hr' =>
    hm.isClipping_of_get? hr.linked hr' (hr.tail.clipping k hk)⟩

section

variable {K : Type} [Field K] [LinearOrder K] [IsStrictOrderedRing K] {exp : K → K}
  {value : Element → K} {lowest : K} {sample : List K} {w w' : Workspace} {count : Nat}

/-- Folding the next activation keeps what the graph computes. -/
theorem Ready.evaluate_merge {g g' : Graph} {t p : Handle} {ts : List Handle} {n m : Node}
    {outer inner f : Activation} (hr : Ready g (t :: ts))
    (hm : Merged g g' t p n m outer inner f) :
    evaluate (.exact exp value lowest) g' sample =
      evaluate (.exact exp value lowest) g sample := by
  have ho : outer = .relu ∨ outer = .relu6 := by
    have hkind := hr.clipping t List.mem_cons_self n hm.get?_activation
    rw [hm.kind_eq] at hkind
    cases outer <;> simp [isClipping] at hkind ⊢
  exact (hm.replaces hr.linked ho hr.oneSink).evaluate_eq hr.linked.toSequenced
    (hm.linked hr.linked).toSequenced

/-- Folding activations one after another keeps what the graph computes. -/
theorem Ready.evaluate_fuseActivationAll {ts : List Handle} (hr : Ready w.graph ts)
    (hf : fuseActivationAll ts w = .ok count w') :
    evaluate (.exact exp value lowest) w'.graph sample =
      evaluate (.exact exp value lowest) w.graph sample :=
  (fuseActivationAll_induction (P := fun ts g => Ready g ts ∧
    evaluate (.exact exp value lowest) g sample =
      evaluate (.exact exp value lowest) w.graph sample)
    (fun h _ => ⟨h.1.tail, h.2⟩)
    (fun h hm => ⟨h.1.merge hm, (h.1.evaluate_merge hm).trans h.2⟩) ⟨hr, rfl⟩ hf).2

end

/-- Folding activations keeps what an accepted graph computes: it gives the same output
for every sample, or fails in the same way. -/
theorem evaluate_fuseActivation {K : Type} [Field K] [LinearOrder K] [IsStrictOrderedRing K]
    (exp : K → K) (value : Element → K) (lowest : K) {w w' : Workspace} {count : Nat}
    (hv : w.graph.verify = .ok ()) (hl : w.graph.Listed)
    (hf : fuseActivation w = .ok count w') (sample : List K) :
    evaluate (.exact exp value lowest) w'.graph sample =
      evaluate (.exact exp value lowest) w.graph sample := by
  have hready : Ready w.graph (w.graph.handlesWhere isClipping) := by
    refine ⟨linked_of_verify hv hl, oneSink_of_verify hv hl, ?_⟩
    exact fun t ht n hn => kind_of_mem_handlesWhere ht hn
  exact hready.evaluate_fuseActivationAll (fuseActivationAll_of_fuseActivation hf)

/-- Calls that build two activations in a row, one beside another reader of its operand,
and one in last place. -/
def clippedThrice : List Edit := [
  .addInput (.source "x" [1, 2]),
  .insert ⟨"d", [[1, 2]], [[1, 2]], .float32, .dense {
    units := 2, activation := .linear, kernel := ⟨[2, 2], .i8 [1, 3, -2, 1]⟩,
    bias := some ⟨[2], .i8 [1, 4]⟩ }⟩ [0] [],
  .insert ⟨"d_relu6", [[1, 2]], [[1, 2]], .float32, .activation .relu6⟩ [1] [],
  .insert ⟨"d_relu", [[1, 2]], [[1, 2]], .float32, .activation .relu⟩ [2] [],
  .insert ⟨"e", [[1, 2]], [[1, 2]], .float32, .dense {
    units := 2, activation := .linear, kernel := ⟨[2, 2], .i8 [1, -1, 2, 1]⟩,
    bias := none }⟩ [3] [],
  .insert ⟨"e_relu", [[1, 2]], [[1, 2]], .float32, .activation .relu⟩ [4] [],
  .insert ⟨"s", [[1, 2], [1, 2]], [[1, 2]], .float32, .add .relu⟩ [4, 5] [],
  .insert ⟨"s_relu6", [[1, 2]], [[1, 2]], .float32, .activation .relu6⟩ [6] []]

/-- Three activations are folded, two of them into one layer, and one stays because its operand has
another reader. -/
theorem evaluate_clippedThrice :
    let w := history {} clippedThrice
    let arithmetic := Arithmetic.exact (K := ℚ) id Element.whole 0
    w.graph.verify = .ok () ∧ w.graph.Listed ∧
      ∃ w', fuseActivation w = .ok 3 w' ∧ w'.graph.order = [0, 1, 4, 5, 6] ∧
        (∀ sample, evaluate arithmetic w'.graph sample = evaluate arithmetic w.graph sample) ∧
        evaluate arithmetic w.graph [1, 2] = .ok [4, 6] := by
  intro w arithmetic
  have hv : w.graph.verify = .ok () := by decide
  have hl : w.graph.Listed :=
    (Workspace.wellFormed_afterAll wellFormed_empty clippedThrice).toLinked.listed
  refine ⟨hv, hl, _, rfl, by decide, ?_, by decide +kernel⟩
  exact evaluate_fuseActivation id Element.whole 0 hv hl rfl

end NeuralC.Simplify
