import NeuralC.Proofs.Graph.Verify
import NeuralC.Proofs.Simplify.Remove

/-!
# NeuralC.Proofs.Graph.Contract

The contract of a graph as a property.  `Framed` is what it says about single
nodes and pairs of them, and `OneSink` that nothing but the last node ends the
graph.  Verification accepts exactly the graphs with both (`verify_eq_ok_iff`),
so a pass keeps the contract when it keeps these.
-/

namespace NeuralC

namespace Graph

/-- Order and edges agree, the first node is the only input, every other node has operands,
and no two nodes have the same name. -/
structure Framed (g : Graph) : Prop extends WellFormed g where
  nonempty : g.order ≠ []
  /-- A node behind the first is no input and has operands. -/
  inner : ∀ {h n}, g.input? ≠ some h → g.get? h = some n →
    n.layer.isInput = false ∧ n.preds ≠ []
  name_inj : ∀ {a b m n}, g.get? a = some m → g.get? b = some n → m.name = n.name → a = b

/-- A graph with an input has a last node. -/
theorem Framed.exists_output? {g : Graph} (hg : g.Framed) : ∃ o, g.output? = some o :=
  Option.isSome_iff_exists.mp (List.getLast?_isSome.mpr hg.nonempty)

/-- A node of a graph with one node changed. -/
theorem exists_of_get?_modify {g : Graph} {h k : Handle} {f : Node → Node} {n' : Node}
    (hn' : (g.modify h f).get? k = some n') : ∃ n, g.get? k = some n ∧ (n' = n ∨ n' = f n) := by
  rw [get?_modify] at hn'
  split at hn'
  · obtain ⟨n, hn, rfl⟩ := Option.map_eq_some_iff.mp hn'
    exact ⟨n, hn, .inr rfl⟩
  · exact ⟨n', hn', .inl rfl⟩

/-- The contract of single nodes is kept by a change that keeps edges, names and inputs. -/
theorem Framed.modify {g : Graph} {h : Handle} {f : Node → Node} (hg : g.Framed)
    (hedges : ∀ n, (f n).preds = n.preds ∧ (f n).succs = n.succs)
    (hlayer : ∀ n, (f n).name = n.name ∧ (f n).layer.isInput = n.layer.isInput) :
    (g.modify h f).Framed := by
  have hnode : ∀ {k n'}, (g.modify h f).get? k = some n' → ∃ n, g.get? k = some n ∧
      n'.preds = n.preds ∧ n'.name = n.name ∧ n'.layer.isInput = n.layer.isInput := by
    intro k n' hn'
    obtain ⟨n, hn, rfl | rfl⟩ := exists_of_get?_modify hn'
    · exact ⟨n', hn, rfl, rfl, rfl⟩
    · exact ⟨n, hn, (hedges n).1, hlayer n⟩
  refine ⟨⟨hg.toLinked.modify hedges, ?_⟩, hg.nonempty, ?_, ?_⟩
  · intro k n' hk hn'
    obtain ⟨n, hn, _, _, hi⟩ := hnode hn'
    rw [hi]
    exact hg.first_isInput hk hn
  · intro k n' hk hn'
    obtain ⟨n, hn, hp, _, hi⟩ := hnode hn'
    rw [hi, hp]
    exact hg.inner hk hn
  · intro a b m' n' hm' hn' heq
    obtain ⟨m, hm, _, hmname, _⟩ := hnode hm'
    obtain ⟨n, hn, _, hnname, _⟩ := hnode hn'
    exact hg.name_inj hm hn (by rw [← hmname, ← hnname, heq])

/-! ## Accepted graphs -/

section Accepted

variable {g : Graph} (hv : g.verify = .ok ())

include hv

/-- A name is new behind the node that has it. -/
theorem name_ne_of_before {a b : Handle} {m n : Node} (hb : g.Before a b)
    (hm : g.get? a = some m) (hn : g.get? b = some n) : m.name ≠ n.name := by
  obtain ⟨xs, ys, ho, ha, hbs⟩ := List.cons_sublist_iff.mp hb
  obtain ⟨ys₁, ys₂, hys⟩ := List.append_of_mem (List.singleton_sublist.mp hbs)
  have ho' : g.order = (xs ++ ys₁) ++ b :: ys₂ := by rw [ho, hys, List.append_assoc]
  obtain ⟨n', hn', hs⟩ := nodeSound_of_verify hv ho'
  rw [hn] at hn'
  injection hn' with hn'
  subst hn'
  intro heq
  refine hs.name_new ?_
  rw [namesBefore, List.mem_reverse, List.mem_map]
  exact ⟨m, List.mem_filterMap.mpr ⟨a, List.mem_append_left _ ha, hm⟩, heq⟩

/-- What verification accepts begins with an input, which alone reads nothing. -/
theorem framed_of_verify (hl : g.Listed) : g.Framed := by
  have hg := linked_of_verify hv hl
  refine ⟨⟨hg, ?_⟩, ?_, ?_, ?_⟩
  · intro h n hf hn
    obtain ⟨_, hs⟩ := nodeSound_of_get? hv (hg.mem_of_get? hn) hn
    exact (hs.source hf).1
  · intro hnil
    rw [verify, hnil] at hv
    contradiction
  · intro h n hf hn
    obtain ⟨_, hs⟩ := nodeSound_of_get? hv (hg.mem_of_get? hn) hn
    exact hs.inner hf
  · intro a b m n hm hn heq
    by_contra hab
    have ha := hg.mem_of_get? hm
    have hb := hg.mem_of_get? hn
    rcases Nat.lt_trichotomy (g.order.idxOf a) (g.order.idxOf b) with hlt | hidx | hlt
    · exact name_ne_of_before hv ((before_iff_idxOf hg.nodup).mpr ⟨ha, hb, hlt⟩) hm hn heq
    · exact hab ((List.idxOf_inj ha).mp hidx)
    · exact name_ne_of_before hv ((before_iff_idxOf hg.nodup).mpr ⟨hb, ha, hlt⟩) hn hm heq.symm

end Accepted

/-! ## Graphs to be accepted -/

namespace Framed

variable {g : Graph} (hg : g.Framed)

include hg

theorem name_new {pre post : List Handle} {h : Handle} {n : Node}
    (ho : g.order = pre ++ h :: post) (hn : g.get? h = some n) : n.name ∉ g.namesBefore pre := by
  intro hmem
  rw [namesBefore, List.mem_reverse, List.mem_map] at hmem
  obtain ⟨m, hm, hname⟩ := hmem
  obtain ⟨k, hk, hm⟩ := List.mem_filterMap.mp hm
  have hkh := hg.name_inj hm hn hname
  subst hkh
  have hnd := hg.nodup
  rw [ho] at hnd
  exact List.disjoint_of_nodup_append hnd hk List.mem_cons_self

/-- The last node, and no other, stands behind all the rest. -/
theorem output?_eq_some {pre post : List Handle} {h : Handle} (ho : g.order = pre ++ h :: post) :
    g.output? = some h ↔ pre.length + 1 = g.order.length := by
  constructor
  · intro hout
    obtain ⟨xs, hxs⟩ := List.getLast?_eq_some_iff.mp hout
    have hidx := idxOf_of_order_eq hg.nodup ho
    rw [idxOf_of_order_eq hg.nodup hxs] at hidx
    rw [hxs, List.length_append, List.length_singleton, hidx]
  · intro hlen
    have hpost : post = [] := by
      rw [ho, List.length_append, List.length_cons] at hlen
      exact List.eq_nil_of_length_eq_zero (by omega)
    rw [output?, ho, hpost]
    exact List.getLast?_concat

/-- A node of a framed graph passes the checks of verification, if the last is the only sink. -/
theorem nodeSound (hs : g.OneSink) {pre post : List Handle} {h : Handle} {n : Node}
    (ho : g.order = pre ++ h :: post) (hn : g.get? h = some n) :
    NodeSound g (g.namesBefore pre) h n pre.length := by
  obtain ⟨hpreds, hsuccs⟩ := hg.edgeFault_eq_none hn
  rw [idxOf_of_order_eq hg.nodup ho] at hpreds
  refine ⟨hg.name_new ho hn, fun hf => ⟨hg.first_isInput hf hn, hg.preds_first hf hn⟩,
    fun hf => hg.inner hf hn, ?_, fun p hp => predFault?_eq_none.mp (hpreds p hp),
    fun s hsm => succFault?_eq_none.mp (hsuccs s hsm)⟩
  rw [← hg.output?_eq_some ho]
  exact ⟨fun hout => hg.succs_last hout hn, fun hnil => hs h n hn hnil⟩

/-- Verification accepts a framed graph in which the last node is the only sink. -/
theorem verify_eq_ok (hs : g.OneSink) : g.verify = .ok () := by
  have hempty : g.order.isEmpty = false := by
    rw [List.isEmpty_eq_false_iff]
    exact hg.nonempty
  rw [verify, if_neg (by simp [hempty]), verifyFrom_eq_ok]
  intro pre h post ho
  obtain ⟨n, hn⟩ := hg.exists_get? (h := h) (by rw [ho]; simp)
  refine ⟨n, hn, ?_⟩
  rw [List.append_nil, Nat.zero_add]
  exact hg.nodeSound hs ho hn

end Framed

/-- Verification accepts just the graphs that keep the contract. -/
theorem verify_eq_ok_iff {g : Graph} (hl : g.Listed) :
    g.verify = .ok () ↔ g.Framed ∧ g.OneSink :=
  ⟨fun hv => ⟨framed_of_verify hv hl, oneSink_of_verify hv hl⟩,
    fun hg => hg.1.verify_eq_ok hg.2⟩

end Graph

end NeuralC
