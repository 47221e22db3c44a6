import NeuralC.Proofs.Graph.Substitution
import NeuralC.Proofs.Simplify.Remove

/-!
# NeuralC.Proofs.Graph.Deletions

Deletions commute.  Each of two deletions rewrites the very lists that the other
one puts in place; what both leave behind is one substitution after the other,
and these can be exchanged as long as one of the nodes does not read the other
(`substitute_comm`).  Edges run forward, so of two nodes that is always so.

From two deletions it goes to any number of them: removing nodes one after
another gives the same, in whatever order they are taken (`removeAll_perm`).
-/

namespace NeuralC

/-! ## Two substitutions -/

/-- A substitution whose items are free of the target of another comes last, or else first, in the
list as well as in the items of the other. -/
theorem substitute_comm {a b : Handle} {as : List Handle} (hab : a ≠ b) (hb : b ∉ as)
    (bs xs : List Handle) :
    substitute b (substitute a as bs) (substitute a as xs) =
      substitute a as (substitute b bs xs) := by
  induction xs with
  | nil => rfl
  | cons x xs ih =>
      rw [substitute_cons, substitute_append, ih, substitute_cons b, substitute_append]
      congr 1
      by_cases hxa : x = a
      · have hxb : x ≠ b := hxa ▸ hab
        rw [if_pos hxa, if_neg hxb, substitute_of_not_mem hb, substitute_cons, if_pos hxa,
          substitute_nil, List.append_nil]
      · by_cases hxb : x = b
        · rw [if_neg hxa, if_pos hxb, substitute_cons, if_pos hxb, substitute_nil,
            List.append_nil]
        · rw [if_neg hxa, if_neg hxb, substitute_of_not_mem (by simpa using Ne.symm hxb),
            substitute_of_not_mem (by simpa using Ne.symm hxa)]

/-- Two nodes of which the first does not read the second can be bypassed in either order. -/
theorem Node.bypass_comm {a b : Handle} {m n : Node} (hab : a ≠ b) (hpreds : b ∉ m.preds)
    (hsuccs : a ∉ n.succs) (r : Node) :
    Node.bypass b (Node.bypass a m n) (Node.bypass a m r) =
      Node.bypass a (Node.bypass b n m) (Node.bypass b n r) := by
  simp only [Node.bypass, Node.mk.injEq, true_and]
  constructor
  · rw [substitute_comm hab hpreds, substitute_of_not_mem hpreds]
  · rw [substitute_comm hab.symm hsuccs, substitute_of_not_mem hsuccs]

namespace Graph

/-! ## Two deletions -/

/-- A graph is known from its order, the number of its slots and the nodes in them. -/
theorem eq_of_get? {g g' : Graph} (horder : g.order = g'.order) (hfresh : g.fresh = g'.fresh)
    (hget : ∀ k, g.get? k = g'.get? k) : g = g' := by
  have hslots : g.slots = g'.slots := by
    refine List.ext_getElem hfresh fun k hk hk' => ?_
    have hnode := hget k
    rwa [get?, get?, List.getElem?_eq_getElem hk, List.getElem?_eq_getElem hk', Option.join_some,
      Option.join_some] at hnode
  obtain ⟨slots, order⟩ := g
  obtain ⟨slots', order'⟩ := g'
  simp only [Graph.mk.injEq]
  exact ⟨hslots, horder⟩

def Inner (g : Graph) (h : Handle) : Prop := g.contains h = true ∧ g.input? ≠ some h

section

variable {g : Graph} {a b : Handle} (hg : g.Linked)

include hg

/-- A node other than the first can be deleted. -/
theorem Linked.exists_delete (ha : g.Inner a) :
    ∃ n g', g.get? a = some n ∧ g.delete a = .ok g' := by
  obtain ⟨n, hn⟩ := contains_iff.mp ha.1
  obtain ⟨g', hd⟩ := Graph.exists_delete (hg.mem_of_get? hn) hn ha.2
  exact ⟨n, g', hn, hd⟩

/-- Other nodes can still be deleted after a deletion. -/
theorem Linked.inner_delete {g' : Graph} (hd : g.delete a = .ok g') (hb : g.Inner b)
    (hab : a ≠ b) : g'.Inner b := by
  obtain ⟨n, hn, _⟩ := delete_cases hd
  exact ⟨(hg.contains_delete hd hn).mpr ⟨hab.symm, hb.1⟩, by rw [input?_delete hd]; exact hb.2⟩

/-- Of two nodes, one does not read the other. -/
theorem Linked.notMem_preds_or {m n : Node} (hm : g.get? a = some m) (hn : g.get? b = some n) :
    (b ∉ m.preds ∧ a ∉ n.succs) ∨ (a ∉ n.preds ∧ b ∉ m.succs) := by
  rw [hg.mem_succs_iff hm hn, hg.mem_succs_iff hn hm, and_self, and_self, ← not_and_or]
  rintro ⟨hb, ha⟩
  exact before_irrefl hg.nodup a (before_trans hg.nodup (hg.forward hn ha) (hg.forward hm hb))

/-- The nodes after two deletions. -/
theorem Linked.get?_delete_delete {g₁ g₂ : Graph} {m n : Node} (hm : g.get? a = some m)
    (hn : g.get? b = some n) (hab : a ≠ b) (ha : g.delete a = .ok g₁) (hb : g₁.delete b = .ok g₂)
    (k : Handle) :
    g₂.get? k = if k = a ∨ k = b then none else
      (g.get? k).map fun r => Node.bypass b (Node.bypass a m n) (Node.bypass a m r) := by
  have hn₁ : g₁.get? b = some (Node.bypass a m n) := by
    rw [hg.get?_delete ha hm, if_neg hab.symm, hn, Option.map_some]
  rw [(hg.delete ha).get?_delete hb hn₁, hg.get?_delete ha hm]
  by_cases hka : k = a
  · simp [hka]
  · by_cases hkb : k = b
    · simp [hkb]
    · rw [if_neg hkb, if_neg hka, if_neg (not_or.mpr ⟨hka, hkb⟩), Option.map_map]
      rfl

/-- Two deletions give the same graph in either order. -/
theorem Linked.delete_delete_comm (ha : g.Inner a) (hb : g.Inner b) (hab : a ≠ b) :
    ∃ ga gb g', g.delete a = .ok ga ∧ ga.delete b = .ok g' ∧ g.delete b = .ok gb ∧
      gb.delete a = .ok g' := by
  obtain ⟨m, ga, hm, hga⟩ := hg.exists_delete ha
  obtain ⟨n, gb, hn, hgb⟩ := hg.exists_delete hb
  obtain ⟨_, gab, _, hgab⟩ := (hg.delete hga).exists_delete (hg.inner_delete hga hb hab)
  obtain ⟨_, gba, _, hgba⟩ := (hg.delete hgb).exists_delete (hg.inner_delete hgb ha hab.symm)
  have heq : gab = gba := by
    refine eq_of_get? ?_ ?_ fun k => ?_
    · rw [order_delete hgab, order_delete hga, order_delete hgba, order_delete hgb,
        List.erase_comm]
    · rw [fresh_delete hgab, fresh_delete hga, fresh_delete hgba, fresh_delete hgb]
    · rw [hg.get?_delete_delete hm hn hab hga hgab, hg.get?_delete_delete hn hm hab.symm hgb hgba]
      refine if_congr or_comm rfl (congrArg (Option.map · (g.get? k)) (funext fun r => ?_))
      rcases hg.notMem_preds_or hm hn with ⟨hpreds, hsuccs⟩ | ⟨hpreds, hsuccs⟩
      · exact Node.bypass_comm hab hpreds hsuccs r
      · exact (Node.bypass_comm hab.symm hpreds hsuccs r).symm
  exact ⟨ga, gb, gab, hga, hgab, hgb, heq ▸ hgba⟩

end

end Graph

/-! ## Any number of deletions -/

namespace Simplify

open NeuralC.Graph

/-- Nodes other than the first can be deleted in any sequence without repetition. -/
theorem exists_removeAll {hs : List Handle} {w : Workspace} (hg : w.graph.Linked)
    (hnd : hs.Nodup) (hhs : ∀ h ∈ hs, w.graph.Inner h) : ∃ w', removeAll hs w = .ok () w' := by
  induction hs generalizing w with
  | nil => exact ⟨w, rfl⟩
  | cons h hs ih =>
      obtain ⟨hh, hnd⟩ := List.nodup_cons.mp hnd
      obtain ⟨hfirst, hhs⟩ := List.forall_mem_cons.mp hhs
      obtain ⟨_, g', _, hd⟩ := hg.exists_delete hfirst
      rw [removeAll_cons_apply hg hd]
      refine ih (hg.delete hd) hnd fun k hk => ?_
      exact hg.inner_delete hd (hhs k hk) fun he => hh (he ▸ hk)

/-- Nodes can be removed in any order. -/
theorem removeAll_perm {hs hs' : List Handle} (hp : hs.Perm hs') {w : Workspace}
    (hg : w.graph.Linked) (hnd : hs.Nodup) (hhs : ∀ h ∈ hs, w.graph.Inner h) :
    removeAll hs w = removeAll hs' w := by
  induction hp generalizing w with
  | nil => rfl
  | cons h _ ih =>
      obtain ⟨hh, hnd⟩ := List.nodup_cons.mp hnd
      obtain ⟨hfirst, hhs⟩ := List.forall_mem_cons.mp hhs
      obtain ⟨_, g', _, hd⟩ := hg.exists_delete hfirst
      rw [removeAll_cons_apply hg hd, removeAll_cons_apply hg hd]
      refine ih (hg.delete hd) hnd fun k hk => ?_
      exact hg.inner_delete hd (hhs k hk) fun he => hh (he ▸ hk)
  | swap a b hs =>
      have hba : b ≠ a := fun he => (List.nodup_cons.mp hnd).1 (he ▸ List.mem_cons_self)
      obtain ⟨gb, ga, g', hgb, hgba, hga, hgab⟩ := hg.delete_delete_comm
        (hhs b List.mem_cons_self) (hhs a (List.mem_cons_of_mem b List.mem_cons_self)) hba
      rw [removeAll_cons_apply hg hgb, removeAll_cons_apply hg hga,
        removeAll_cons_apply (hg.delete hgb) hgba, removeAll_cons_apply (hg.delete hga) hgab]
  | trans hp _ ih ih' =>
      rw [ih hg hnd hhs]
      exact ih' hg (hp.nodup_iff.mp hnd) fun h hh => hhs h (hp.mem_iff.mpr hh)

end Simplify

/-- **Deletions commute.**  Two nodes other than the first can be deleted in either order, with the
same graph in the end; so a set of nodes can be removed in any order. -/
theorem deletions_commute {w : Workspace} (hr : Reachable w.graph) :
    (∀ a b, a ≠ b → w.graph.Inner a → w.graph.Inner b →
      ∃ ga gb g', w.graph.delete a = .ok ga ∧ ga.delete b = .ok g' ∧
        w.graph.delete b = .ok gb ∧ gb.delete a = .ok g') ∧
    ∀ hs hs' : List Handle, hs.Nodup → hs.Perm hs' → (∀ h ∈ hs, w.graph.Inner h) →
      ∃ w', Simplify.removeAll hs w = .ok () w' ∧ Simplify.removeAll hs' w = .ok () w' := by
  have hg : w.graph.Linked := hr.linked
  constructor
  · intro a b hab ha hb
    exact hg.delete_delete_comm ha hb hab
  · intro hs hs' hnd hp hhs
    obtain ⟨w', hw'⟩ := Simplify.exists_removeAll hg hnd hhs
    exact ⟨w', hw', by rw [← Simplify.removeAll_perm hp hg hnd hhs, hw']⟩

/-- Calls that build two layers to be deleted, one of which reads the other twice, between others
that both of them are linked with. -/
def entangled : List Edit := [
  .addInput (.source "x" [1, 2]),
  .insert (passing "y" (.activation .relu)) [0] [],
  .insert (passing "a" .identity) [0, 1] [],
  .insert (passing "b" .identity) [2, 1, 2] [],
  .insert (passing "c" (.add .linear)) [3, 0, 2] []]

/-- Two neighbours with edges in parallel, deleted in both sequences. -/
theorem deletions_entangled :
    let w := history {} entangled
    Reachable w.graph ∧ w.graph.Inner 2 ∧ w.graph.Inner 3 ∧
      (∃ ga gb g', w.graph.delete 2 = .ok ga ∧ ga.delete 3 = .ok g' ∧
        w.graph.delete 3 = .ok gb ∧ gb.delete 2 = .ok g' ∧ g'.order = [0, 1, 4] ∧
        (g'.get? 4).map Node.preds = some [0, 1, 1, 0, 1, 0, 0, 1]) ∧
      ∃ w', Simplify.removeAll [2, 3] w = .ok () w' ∧ Simplify.removeAll [3, 2] w = .ok () w' := by
  intro w
  have hr : Reachable w.graph := reachable_history {} entangled
  have ha : w.graph.Inner 2 := ⟨by decide, by decide⟩
  have hb : w.graph.Inner 3 := ⟨by decide, by decide⟩
  obtain ⟨htwo, hall⟩ := deletions_commute hr
  refine ⟨hr, ha, hb, ?_, hall [2, 3] [3, 2] (by decide) (.swap 3 2 []) ?_⟩
  · obtain ⟨ga, gb, g', hga, hgab, hgb, hgba⟩ := htwo 2 3 (by decide) ha hb
    refine ⟨ga, gb, g', hga, hgab, hgb, hgba, ?_⟩
    injection hga with hga
    subst hga
    injection hgab with hgab
    subst hgab
    decide
  · simpa using ⟨ha, hb⟩

end NeuralC
