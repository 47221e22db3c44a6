import NeuralC.Proofs.Graph.Calls
import NeuralC.Proofs.Graph.Verify
import NeuralC.Simplify.Remove

/-!
# NeuralC.Proofs.Simplify.Remove

The steps that passes are made of: choosing nodes by their kind and deleting
one.  A pass chooses its nodes once and treats them one after another
(`sweep_eq_ok`, `removeAll_cons`).  When a node with one operand is deleted, the
output of the graph moves to that operand where the node was the last
(`OneSink.output?_delete`).
-/

namespace NeuralC

/-! ## Steps -/

namespace Simplify

/-- A choice by kind has the layers of that kind. -/
theorem mem_handlesWhere {g : Graph} {p : LayerKind → Bool} {h : Handle} :
    h ∈ g.handlesWhere p ↔ h ∈ g.order ∧ ∃ n, g.get? h = some n ∧ p n.layer.kind = true := by
  rw [Graph.handlesWhere, List.mem_filter]
  cases g.get? h <;> simp

theorem kind_of_mem_handlesWhere {g : Graph} {p : LayerKind → Bool} {h : Handle} {n : Node}
    (hh : h ∈ g.handlesWhere p) (hn : g.get? h = some n) : p n.layer.kind = true := by
  obtain ⟨_, m, hm, hp⟩ := mem_handlesWhere.mp hh
  rw [hn] at hm
  injection hm with hm
  rw [hm, hp]

/-- Choosing at work changes nothing. -/
theorem handlesWhere_of_eq_ok {p : LayerKind → Bool} {hs : List Handle} {w w' : Workspace}
    (hw : Work.handlesWhere p w = .ok hs w') : hs = w.graph.handlesWhere p ∧ w' = w := by
  obtain ⟨g, v, hg, hw⟩ := Work.bind_eq_ok.mp hw
  injection hg with hg hv
  subst hg hv
  obtain ⟨ns, v, hns, hw⟩ := Work.bind_eq_ok.mp hw
  obtain ⟨_, rfl⟩ := Work.attempt_eq_ok.mp hns
  injection hw with hs hv
  exact ⟨hs.symm, hv.symm⟩

/-- Where every handle of the order has a node, none is missed. -/
theorem handlesWhere_apply {w : Workspace}
    (hall : ∀ h ∈ w.graph.order, ∃ n, w.graph.get? h = some n)
    (p : LayerKind → Bool) : Work.handlesWhere p w = .ok (w.graph.handlesWhere p) w := by
  have hnodes : ∃ ns, w.graph.nodes = .ok ns := exists_mapM_eq_ok fun h hh => by
    obtain ⟨n, hn⟩ := hall h hh
    exact ⟨n, Graph.node_eq_ok.mpr hn⟩
  obtain ⟨ns, hns⟩ := hnodes
  simp only [Work.handlesWhere, Work.bind_apply, Work.graph_apply, hns, Work.attempt_ok,
    Work.pure_apply]

/-! ## Runs -/

/-- Removing a node that can be deleted, and then others. -/
theorem removeAll_cons_apply {w : Workspace} {h : Handle} {g' : Graph} (hg : w.graph.Linked)
    (hd : w.graph.delete h = .ok g') (hs : List Handle) :
    removeAll (h :: hs) w =
      removeAll hs ⟨g', { w.session with stats := w.session.stats.recordRemoved }⟩ := by
  rw [removeAll, Work.bind_apply, Work.delete_apply hg, hd]
  rfl

/-- What a run that removes nodes has done first. -/
theorem removeAll_cons {h : Handle} {hs : List Handle} {w w' : Workspace}
    (hr : removeAll (h :: hs) w = .ok () w') :
    ∃ v, w.graph.delete h = .ok v.graph ∧ removeAll hs v = .ok () w' := by
  obtain ⟨_, v, hdelete, hr⟩ := Work.bind_eq_ok.mp hr
  obtain ⟨g', hd, rfl⟩ := Work.graph_of_delete hdelete
  obtain ⟨_, v, hcount, hr⟩ := Work.bind_eq_ok.mp hr
  injection hcount with _ hcount
  subst hcount
  exact ⟨_, hd, hr⟩

/-- A pass over the layers of some kinds treats those that the graph has when it starts. -/
theorem sweep_eq_ok {p : LayerKind → Bool} {treat : List Handle → Work Unit} {count : Nat}
    {w w' : Workspace}
    (hs : (do
      let targets ← Work.handlesWhere p
      treat targets
      return targets.length : Work Nat) w = .ok count w') :
    treat (w.graph.handlesWhere p) w = .ok () w' := by
  obtain ⟨targets, v, hwhere, hs⟩ := Work.bind_eq_ok.mp hs
  obtain ⟨rfl, rfl⟩ := handlesWhere_of_eq_ok hwhere
  obtain ⟨_, v, htreat, hs⟩ := Work.bind_eq_ok.mp hs
  injection hs with _ hs
  subst hs
  exact htreat

end Simplify

/-! ## The last layer -/

namespace Graph

/-- Only the last node has no successors. -/
def OneSink (g : Graph) : Prop :=
  ∀ h n, g.get? h = some n → n.succs = [] → g.output? = some h

/-- What verification accepts has one sink, the last node. -/
theorem oneSink_of_verify {g : Graph} (hv : g.verify = .ok ()) (hl : g.Listed) : g.OneSink :=
  fun h n hn hs => (succs_eq_nil_of_verify hv (hl h (contains_iff.mpr ⟨n, hn⟩)) hn).mp hs

/-- Other layers and records do not change which nodes have successors. -/
theorem OneSink.modify {g : Graph} {h : Handle} {f : Node → Node} (hs : g.OneSink)
    (hf : ∀ n, (f n).succs = n.succs) : (g.modify h f).OneSink := by
  intro k n hn hnil
  rw [get?_modify] at hn
  split at hn
  · obtain ⟨m, hm, rfl⟩ := Option.map_eq_some_iff.mp hn
    exact hs k m hm (hf m ▸ hnil)
  · exact hs k n hn hnil

section

variable {g g' : Graph} {h p : Handle} {n : Node} (hg : g.Linked) (hs : g.OneSink)
  (hd : g.delete h = .ok g') (hn : g.get? h = some n) (hp : n.preds = [p])

include hd in
/-- A last node that stays is still the last. -/
theorem output?_delete_of_ne {o : Handle} (ho : g.output? = some o) (hne : o ≠ h) :
    g'.output? = some o := by
  obtain ⟨xs, hxs⟩ := List.getLast?_eq_some_iff.mp ho
  rw [output?, order_delete hd, hxs, List.erase_append]
  split
  · exact List.getLast?_concat
  · rw [List.erase_of_not_mem (by simpa using hne.symm)]
    exact List.getLast?_concat

include hg hs hd hn hp

/-- A node that has no successors once `h` is deleted is the last, or the operand of a
last node `h`. -/
theorem OneSink.sink_delete {k : Handle} {m : Node} (hm : g'.get? k = some m)
    (hnil : m.succs = []) : (k ≠ h ∧ g.output? = some k) ∨ (k = p ∧ g.output? = some h) := by
  rw [hg.get?_delete hd hn] at hm
  split at hm
  · contradiction
  · next hk =>
      obtain ⟨r, hr, rfl⟩ := Option.map_eq_some_iff.mp hm
      have hnot : ∀ s, s ∉ substitute h n.succs r.succs := List.eq_nil_iff_forall_not_mem.mp hnil
      by_cases hread : h ∈ r.succs
      · have hkp : k = p := by
          have hmem := (hg.mem_succs_iff hr hn).mp hread
          rwa [hp, List.mem_singleton] at hmem
        have hnsuccs : n.succs = [] := by
          rw [List.eq_nil_iff_forall_not_mem]
          exact fun s hsn => hnot s (mem_substitute.mpr (.inr ⟨hread, hsn⟩))
        exact .inr ⟨hkp, hs h n hn hnsuccs⟩
      · have hrsuccs : r.succs = [] := by
          rw [← substitute_of_not_mem hread]
          exact hnil
        exact .inl ⟨hk, hs k r hr hrsuccs⟩

/-- The output moves to the operand of a last node that is deleted. -/
theorem OneSink.output?_delete :
    g'.output? = g.output?.map fun o => if o = h then p else o := by
  have hpo : p ∈ g.order := (hg.forward hn (hp ▸ List.mem_singleton_self p)).left_mem
  have hph : p ≠ h := by
    rintro rfl
    exact hg.not_mem_preds hn (by simp [hp])
  obtain ⟨o, ho⟩ : ∃ o, g.output? = some o :=
    Option.isSome_iff_exists.mp (List.getLast?_isSome.mpr (List.ne_nil_of_mem hpo))
  rw [ho, Option.map_some]
  split
  · next hoh =>
      subst hoh
      have hpo' : p ∈ g'.order := by
        rw [order_delete hd]
        exact (List.mem_erase_of_ne hph).mpr hpo
      obtain ⟨o', ho'⟩ : ∃ o', g'.output? = some o' :=
        Option.isSome_iff_exists.mp (List.getLast?_isSome.mpr (List.ne_nil_of_mem hpo'))
      have hg' := hg.delete hd
      obtain ⟨m, hm⟩ := hg'.exists_get? (List.mem_of_getLast? ho')
      -- What is last now has no successors, so it is the operand.
      rcases hs.sink_delete hg hd hn hp hm (hg'.succs_last ho' hm) with ⟨hne, hlast⟩ | ⟨rfl, _⟩
      · rw [ho] at hlast
        injection hlast with hlast
        exact absurd hlast.symm hne
      · exact ho'
  · next hoh => exact output?_delete_of_ne hd ho hoh

/-- Deleting a node with one operand leaves one sink. -/
theorem OneSink.delete : g'.OneSink := by
  intro k m hm hnil
  rw [hs.output?_delete hg hd hn hp]
  rcases hs.sink_delete hg hd hn hp hm hnil with ⟨hne, hlast⟩ | ⟨rfl, hlast⟩
  · rw [hlast, Option.map_some, if_neg hne]
  · rw [hlast, Option.map_some, if_pos rfl]

end

end Graph

end NeuralC
