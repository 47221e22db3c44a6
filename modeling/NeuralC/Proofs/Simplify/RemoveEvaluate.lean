import NeuralC.Proofs.Evaluate.Solution
import NeuralC.Proofs.Graph.Histories
import NeuralC.Proofs.Simplify.Bypass

/-!
# NeuralC.Proofs.Simplify.RemoveEvaluate

Removing identities and dropouts keeps what a graph computes, in any numbers.

Where each such layer has one operand, deleting it is never refused, and its
readers find in the operand what they found in the layer (`replaces_of_delete`).
The graph keeps its single last layer and its layers their number of operands,
so the next one can go in the same way: `Removable` is what a deletion needs and
leaves behind.
-/

namespace NeuralC.Simplify

open NeuralC.Graph NeuralC.Evaluate

/-- Whether a layer passes its operand on as it is. -/
def passesOn (kind : LayerKind) : Bool := isIdentity kind || isDropout kind

theorem passesOn_of_isIdentity {kind : LayerKind} (hk : isIdentity kind = true) :
    passesOn kind = true := by
  rw [passesOn, hk, Bool.true_or]

theorem passesOn_of_isDropout {kind : LayerKind} (hk : isDropout kind = true) :
    passesOn kind = true := by
  rw [passesOn, hk, Bool.or_true]

/-! ## One layer -/

section

variable {α : Type} {a : Arithmetic α} {sample : List α} {g g' : Graph} {h p : Handle} {n : Node}

/-- A layer that passes its operand on has the value of the operand. -/
theorem result_of_passesOn {v : Outputs α} (hk : passesOn n.layer.kind = true)
    (hp : n.preds = [p]) : result a sample v n = .ok (v p) := by
  rw [result, hp]
  cases hkind : n.layer.kind with
  | identity => simp [layer, hkind]
  | dropout rate => simp [layer, hkind]
  | _ =>
      rw [hkind] at hk
      contradiction

/-- Without such a layer its readers find the same values one step back. -/
theorem replaces_of_delete (hg : g.Linked) (hs : g.OneSink) (hd : g.delete h = .ok g')
    (hn : g.get? h = some n) (hk : passesOn n.layer.kind = true) (hp : n.preds = [p]) :
    Replaces a sample g g' h p fun _ => id where
  order_eq := order_delete hd
  gone := by
    intro r v hr
    rw [hn] at hr
    injection hr with hr
    rw [← hr, result_of_passesOn hk hp]
    rfl
  kept := by
    intro k r v hkh hr hread
    refine ⟨Node.bypass h n r, ?_, ?_⟩
    · rw [hg.get?_delete hd hn, if_neg hkh, hr, Option.map_some]
    · rw [Except.map_id, id]
      refine result_bypass hp fun x hx => ?_
      by_cases hxh : x = h
      · subst hxh
        simp [hread hx]
      · simp [hxh]
  output?_eq := hs.output?_delete hg hd hn hp
  post_output := by
    intro o xs _ _
    rfl

end

/-! ## All layers -/

/-- A graph with one last layer whose identities and dropouts have one operand each. -/
structure Removable (g : Graph) : Prop where
  linked : g.Linked
  oneSink : g.OneSink
  single : ∀ {h n}, g.get? h = some n → passesOn n.layer.kind = true → n.preds.length = 1

namespace Removable

/-- Deleting an identity or a dropout is not refused, keeps what the graph computes, and
leaves the others to be deleted. -/
theorem delete {g : Graph} {h : Handle} {n : Node} (hr : Removable g) (hn : g.get? h = some n)
    (hk : passesOn n.layer.kind = true) :
    ∃ g', g.delete h = .ok g' ∧ Removable g' ∧
      ∀ (α : Type) (a : Arithmetic α) (sample : List α),
        evaluate a g' sample = evaluate a g sample := by
  obtain ⟨p, hp⟩ := List.length_eq_one_iff.mp (hr.single hn hk)
  have hfirst : g.input? ≠ some h := by
    intro hf
    have hnil := hr.linked.preds_first hf hn
    rw [hp] at hnil
    contradiction
  obtain ⟨g', hd⟩ := exists_delete (hr.linked.mem_of_get? hn) hn hfirst
  have hlinked := hr.linked.delete hd
  refine ⟨g', hd, ⟨hlinked, hr.oneSink.delete hr.linked hd hn hp, ?_⟩, ?_⟩
  · intro k m' hm' hkind
    rw [hr.linked.get?_delete hd hn] at hm'
    split at hm'
    · contradiction
    · obtain ⟨m, hm, rfl⟩ := Option.map_eq_some_iff.mp hm'
      rw [Node.bypass, hp, substitute_singleton, List.length_map]
      exact hr.single hm hkind
  · intro α a sample
    exact (replaces_of_delete hr.linked hr.oneSink hd hn hk hp).evaluate_eq
      hr.linked.toSequenced hlinked.toSequenced

/-- Removing such layers succeeds and keeps what the graph computes, whatever the arithmetic. -/
theorem removeAll {hs : List Handle} {w : Workspace} (hr : Removable w.graph) (hnd : hs.Nodup)
    (hhs : ∀ h ∈ hs, ∃ n, w.graph.get? h = some n ∧ passesOn n.layer.kind = true) :
    ∃ w', removeAll hs w = .ok () w' ∧ Removable w'.graph ∧
      ∀ (α : Type) (a : Arithmetic α) (sample : List α),
        evaluate a w'.graph sample = evaluate a w.graph sample := by
  induction hs generalizing w with
  | nil => exact ⟨w, rfl, hr, fun _ _ _ => rfl⟩
  | cons h hs ih =>
      obtain ⟨n, hn, hk⟩ := hhs h List.mem_cons_self
      obtain ⟨g', hd, hr', heval⟩ := hr.delete hn hk
      have hhs' : ∀ k ∈ hs, ∃ m, g'.get? k = some m ∧ passesOn m.layer.kind = true := by
        intro k hks
        have hkh : k ≠ h := fun he => (List.nodup_cons.mp hnd).1 (he ▸ hks)
        obtain ⟨m, hm, hkind⟩ := hhs k (List.mem_cons_of_mem h hks)
        refine ⟨Node.bypass h n m, ?_, hkind⟩
        rw [hr.linked.get?_delete hd hn, if_neg hkh, hm, Option.map_some]
      obtain ⟨w', hall, hr'', heval'⟩ := ih
        (w := ⟨g', { w.session with stats := w.session.stats.recordRemoved }⟩) hr'
        (List.nodup_cons.mp hnd).2 hhs'
      refine ⟨w', (removeAll_cons_apply hr.linked hd hs).trans hall, hr'', fun α a sample => ?_⟩
      rw [heval' α a sample]
      exact heval α a sample

/-- Removing all layers of some kinds that pass their operand on. -/
theorem removeWhere {p : LayerKind → Bool} {w : Workspace} (hr : Removable w.graph)
    (hp : ∀ {kind}, p kind = true → passesOn kind = true) :
    ∃ w', removeWhere p w = .ok (w.graph.handlesWhere p).length w' ∧ Removable w'.graph ∧
      ∀ (α : Type) (a : Arithmetic α) (sample : List α),
        evaluate a w'.graph sample = evaluate a w.graph sample := by
  have htargets : ∀ h ∈ w.graph.handlesWhere p,
      ∃ n, w.graph.get? h = some n ∧ passesOn n.layer.kind = true := by
    intro h hh
    obtain ⟨_, n, hn, hk⟩ := mem_handlesWhere.mp hh
    exact ⟨n, hn, hp hk⟩
  obtain ⟨w', hall, hrest⟩ := hr.removeAll (hr.linked.nodup.filter _) htargets
  refine ⟨w', ?_, hrest⟩
  exact Work.bind_eq_ok.mpr ⟨_, w, handlesWhere_apply (fun _ => hr.linked.exists_get?) p,
    Work.bind_eq_ok.mpr ⟨(), w', hall, rfl⟩⟩

end Removable

/-- **Removing identities and dropouts keeps what an accepted graph computes**, where each of
them has one operand.  Neither pass fails, alone or one after the other; all layers of its kind
are gone; and every sample gives the same output, or fails in the same way. -/
theorem evaluate_remove {w : Workspace} (hv : w.graph.verify = .ok ()) (hl : w.graph.Listed)
    (hone : ∀ h n, w.graph.get? h = some n →
      (isIdentity n.layer.kind || isDropout n.layer.kind) = true → n.preds.length = 1) :
    ∃ w₁ w₂ w₃,
      removeIdentity w = .ok (w.graph.handlesWhere isIdentity).length w₁ ∧
      removeDropout w = .ok (w.graph.handlesWhere isDropout).length w₂ ∧
      removeDropout w₁ = .ok (w₁.graph.handlesWhere isDropout).length w₃ ∧
      w₁.graph.handlesWhere isIdentity = [] ∧ w₂.graph.handlesWhere isDropout = [] ∧
      w₃.graph.handlesWhere isIdentity = [] ∧ w₃.graph.handlesWhere isDropout = [] ∧
      ∀ (α : Type) (a : Arithmetic α) (sample : List α),
        evaluate a w₁.graph sample = evaluate a w.graph sample ∧
        evaluate a w₂.graph sample = evaluate a w.graph sample ∧
        evaluate a w₃.graph sample = evaluate a w.graph sample := by
  have hg := linked_of_verify hv hl
  have hr : Removable w.graph := ⟨hg, oneSink_of_verify hv hl, hone _ _⟩
  obtain ⟨w₁, h₁, hr₁, heval₁⟩ := hr.removeWhere passesOn_of_isIdentity
  obtain ⟨w₂, h₂, _, heval₂⟩ := hr.removeWhere passesOn_of_isDropout
  obtain ⟨w₃, h₃, _, heval₃⟩ := hr₁.removeWhere passesOn_of_isDropout
  have hs₁ := shrinks_of_removeWhere hg h₁
  have hs₂ := shrinks_of_removeWhere hg h₂
  have hs₃ := shrinks_of_removeWhere hr₁.linked h₃
  have hnone := hs₁.handlesWhere_eq_nil hg steady_isIdentity
  refine ⟨w₁, w₂, w₃, h₁, h₂, h₃, hnone, ?_, ?_, ?_, fun α a sample => ⟨?_, ?_, ?_⟩⟩
  · exact hs₂.handlesWhere_eq_nil hg steady_isDropout
  · exact hs₃.handlesWhere_eq_nil_of_eq_nil hr₁.linked steady_isIdentity hnone
  · exact hs₃.handlesWhere_eq_nil hr₁.linked steady_isDropout
  · exact heval₁ α a sample
  · exact heval₂ α a sample
  · rw [heval₃ α a sample, heval₁ α a sample]

/-- Calls that build a dropout behind an identity, a sum that reads a layer both directly and
through them, and an identity behind a dropout in last place. -/
def passedOn : List Edit := [
  .addInput (.source "x" [1, 2]),
  .insert ⟨"r", [[1, 2]], [[1, 2]], .float32, .activation .relu⟩ [0] [],
  .insert ⟨"i", [[1, 2]], [[1, 2]], .float32, .identity⟩ [1] [],
  .insert ⟨"d", [[1, 2]], [[1, 2]], .float32, .dropout 0.5⟩ [2] [],
  .insert ⟨"s", [[1, 2], [1, 2], [1, 2]], [[1, 2]], .float32, .add .linear⟩ [1, 3, 2] [],
  .insert ⟨"e", [[1, 2]], [[1, 2]], .float32, .dropout 0.25⟩ [4] [],
  .insert ⟨"j", [[1, 2]], [[1, 2]], .float32, .identity⟩ [5] []]

/-- Four layers that pass on are removed, also in last place, and edges become parallel. -/
theorem evaluate_passedOn :
    let w := history {} passedOn
    w.graph.verify = .ok () ∧ w.graph.Listed ∧
      ∃ w₁ w₃, removeIdentity w = .ok 2 w₁ ∧ removeDropout w₁ = .ok 2 w₃ ∧
        w₃.graph.order = [0, 1, 4] ∧ (w₃.graph.get? 4).map Node.preds = some [1, 1, 1] ∧
        (∀ sample, evaluate singlePrecision w₃.graph sample =
          evaluate singlePrecision w.graph sample) ∧
        evaluate singlePrecision w.graph [1.5, -2] = .ok [4.5, 0] := by
  intro w
  have hv : w.graph.verify = .ok () := by decide
  have hl : w.graph.Listed :=
    (Workspace.wellFormed_afterAll wellFormed_empty passedOn).toLinked.listed
  have hone : ∀ h n, w.graph.get? h = some n →
      (isIdentity n.layer.kind || isDropout n.layer.kind) = true → n.preds.length = 1 := by
    intro h n hn hk
    have hall := hl.all_get? (p := fun n =>
      !(isIdentity n.layer.kind || isDropout n.layer.kind) || n.preds.length == 1) (by decide) hn
    simpa [hk] using hall
  obtain ⟨w₁, w₂, w₃, h₁, _, h₃, _, _, _, _, heval⟩ := evaluate_remove hv hl hone
  injection h₁ with _ h₁
  subst h₁
  injection h₃ with _ h₃
  subst h₃
  refine ⟨hv, hl, _, _, rfl, rfl, by decide, by decide, fun sample => ?_, by decide +kernel⟩
  exact (heval Float32 singlePrecision sample).2.2

end NeuralC.Simplify
