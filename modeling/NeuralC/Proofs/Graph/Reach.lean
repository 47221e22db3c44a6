import Mathlib.Data.List.Perm.Subperm
import Mathlib.Logic.Relation
import NeuralC.Proofs.Graph.Histories
import NeuralC.Proofs.Graph.Trail

/-!
# NeuralC.Proofs.Graph.Reach

Which nodes the input of a graph reaches, and which reach its last node.
Verification looks at one node at a time; here its findings are put together
along walks.

1. A walk along edges runs forward in the order, so it meets no node twice and
   is no longer than the order (`Linked.nodup_of_walk`, `Linked.length_walk_le`).
2. A node without operands is the input, and one without readers the last node.
   So walks against the edges end at the one and walks along them at the other
   (`node_between_input_and_last`).
-/

namespace NeuralC

open Relation (ReflTransGen reflTransGen_swap)

namespace Trail

variable {next : Handle → Option Handle} {h k : Handle} {hs : List Handle}

/-- The steps of a walk lead from its first node to its last. -/
theorem reflTransGen {R : Handle → Handle → Prop} (hR : ∀ a b, next a = some b → R a b)
    (ht : Trail next h hs) (hk : hs.getLast? = some k) : ReflTransGen R h k := by
  induction ht with
  | stop _ =>
      simp only [List.getLast?_singleton, Option.some.injEq] at hk
      rw [hk]
  | step hnext hrest ih =>
      obtain ⟨ks, rfl⟩ := hrest.exists_eq_cons
      exact .head (hR _ _ hnext) (ih (by simpa using hk))

/-- A walk stops where there is no next node. -/
theorem next_eq_none (ht : Trail next h hs) (hk : hs.getLast? = some k) : next k = none := by
  induction ht with
  | stop hnone =>
      simp only [List.getLast?_singleton, Option.some.injEq] at hk
      rwa [← hk]
  | step _ hrest ih =>
      obtain ⟨ks, rfl⟩ := hrest.exists_eq_cons
      exact ih (by simpa using hk)

end Trail

namespace Graph

/-! ## Walks -/

def Feeds (g : Graph) (a b : Handle) : Prop := ∃ n, g.get? a = some n ∧ b ∈ n.succs

namespace Linked

variable {g : Graph} (hg : g.Linked)

include hg

/-- Readers say of an edge what producers say. -/
theorem feeds_iff {a b : Handle} : g.Feeds a b ↔ ∃ n, g.get? b = some n ∧ a ∈ n.preds := by
  constructor
  · rintro ⟨m, hm, hb⟩
    obtain ⟨n, hn⟩ := contains_iff.mp (hg.succ_live hm hb)
    exact ⟨n, hn, (hg.mem_succs_iff hm hn).mp hb⟩
  · rintro ⟨n, hn, ha⟩
    obtain ⟨m, hm⟩ := contains_iff.mp (hg.pred_live hn ha)
    exact ⟨m, hm, (hg.mem_succs_iff hm hn).mpr ha⟩

/-- An edge leads forward in the order. -/
theorem before_of_feeds {a b : Handle} (h : g.Feeds a b) : g.Before a b := by
  obtain ⟨n, hn, hb⟩ := h
  exact hg.forward_succ hn hb

/-- Every node of a walk comes behind all those that the walk met before. -/
theorem pairwise_of_walk {walk : List Handle} (hw : walk.IsChain g.Feeds) :
    walk.Pairwise g.Before := by
  have : Trans g.Before g.Before g.Before := ⟨before_trans hg.nodup⟩
  exact (hw.imp fun _ _ => hg.before_of_feeds).pairwise

/-- A walk along edges comes to no node twice. -/
theorem nodup_of_walk {walk : List Handle} (hw : walk.IsChain g.Feeds) : walk.Nodup := by
  refine (hg.pairwise_of_walk hw).imp fun {a b} hb heq => ?_
  subst heq
  exact before_irrefl hg.nodup a hb

/-- A walk that starts in the graph stays there. -/
theorem mem_order_of_walk {h k : Handle} {hs : List Handle} (hw : (h :: hs).IsChain g.Feeds)
    (hh : h ∈ g.order) (hk : k ∈ h :: hs) : k ∈ g.order := by
  rcases List.mem_cons.mp hk with rfl | hk
  · exact hh
  · have hb := List.rel_of_pairwise_cons (hg.pairwise_of_walk hw) hk
    exact hb.subset (by simp)

/-- No walk meets more nodes than there are. -/
theorem length_walk_le {h : Handle} {hs : List Handle} (hw : (h :: hs).IsChain g.Feeds)
    (hh : h ∈ g.order) : (h :: hs).length ≤ g.size := by
  have hsub : (h :: hs) ⊆ g.order := fun _ => hg.mem_order_of_walk hw hh
  exact (List.subperm_of_subset (hg.nodup_of_walk hw) hsub).length_le

end Linked

/-! ## Accepted graphs -/

/-- Nothing but the last node feeds no other. -/
theorem Framed.forall_not_feeds_iff {g : Graph} (hg : g.Framed) (hs : g.OneSink) {k : Handle}
    (hk : k ∈ g.order) : (∀ s, ¬ g.Feeds k s) ↔ g.output? = some k := by
  obtain ⟨n, hn⟩ := hg.exists_get? hk
  constructor
  · intro hnone
    refine hs k n hn (List.eq_nil_iff_forall_not_mem.mpr fun s hmem => ?_)
    exact hnone s ⟨n, hn, hmem⟩
  · rintro hout s ⟨m, hm, hmem⟩
    rw [hg.succs_last hout hm] at hmem
    contradiction

/-- Where nothing but the last node is a sink, first readers lead to it. -/
theorem Framed.getLast?_trail_firstReader? {g : Graph} (hg : g.Framed) (hs : g.OneSink)
    {h : Handle} {ks : List Handle} (ht : Trail g.firstReader? h ks) (hh : h ∈ g.order) :
    ks.getLast? = g.output? := by
  obtain ⟨rest, rfl⟩ := ht.exists_eq_cons
  obtain ⟨k, hk⟩ : ∃ k, (h :: rest).getLast? = some k := by simp [List.getLast?_cons]
  have hmem := hg.toLinked.mem_of_mem_trail ht hh (List.mem_of_getLast? hk)
  obtain ⟨n, hn⟩ := hg.exists_get? hmem
  have hnone := ht.next_eq_none hk
  rw [firstReader?_of_get? hn, List.head?_eq_none_iff] at hnone
  rw [hk, hs k n hn hnone]

/-- **Every node of an accepted graph lies between its input and its last node.**  First operands
lead back to the input.  However one goes on from reader to reader, one comes to an end after
fewer steps than there are nodes, and what ends there is the last node. -/
theorem node_between_input_and_last {g : Graph} (hr : Reachable g) (hv : g.verify = .ok ()) :
    ∃ first last, g.input? = some first ∧ g.output? = some last ∧
      ∀ h, g.contains h = true →
        ReflTransGen g.Feeds first h ∧ ReflTransGen g.Feeds h last ∧
        (∃ hs, Trail g.firstOperand? h hs ∧ hs.getLast? = some first) ∧
        ∀ walk, (h :: walk).IsChain g.Feeds →
          (h :: walk).length ≤ g.size ∧
          ∀ k, (h :: walk).getLast? = some k → ((∀ s, ¬ g.Feeds k s) ↔ k = last) := by
  have hl := hr.linked
  have hg := framed_of_verify hv hl.listed
  have hs := oneSink_of_verify hv hl.listed
  obtain ⟨last, hlast⟩ := hg.exists_output?
  obtain ⟨first, hfirst⟩ : ∃ first, g.input? = some first :=
    ⟨_, List.head?_eq_some_head hg.nonempty⟩
  refine ⟨first, last, hfirst, hlast, fun h hh => ?_⟩
  rw [← hl.mem_order] at hh
  have hends : ∀ k ∈ g.order, (∀ s, ¬ g.Feeds k s) ↔ k = last := by
    intro k hk
    rw [hg.forall_not_feeds_iff hs hk, hlast, Option.some.injEq, eq_comm]
  obtain ⟨back, hback⟩ := hl.exists_trail_firstOperand? h
  have hstart : back.getLast? = some first := (hg.getLast?_trail hback hh).trans hfirst
  refine ⟨?_, ?_, ⟨back, hback, hstart⟩, fun walk hw => ⟨hl.length_walk_le hw hh, ?_⟩⟩
  · refine reflTransGen_swap.mp (hback.reflTransGen (fun a b hab => ?_) hstart)
    obtain ⟨n, hn, hhead⟩ := firstOperand?_eq_some.mp hab
    exact hl.feeds_iff.mpr ⟨n, hn, List.mem_of_head? hhead⟩
  · obtain ⟨onward, honward⟩ := hl.exists_trail_firstReader? h
    have hstop := (hg.getLast?_trail_firstReader? hs honward hh).trans hlast
    refine honward.reflTransGen (fun a b hab => ?_) hstop
    obtain ⟨n, hn, hhead⟩ := firstReader?_eq_some.mp hab
    exact ⟨n, hn, List.mem_of_head? hhead⟩
  · exact fun k hk => hends k (hl.mem_order_of_walk hw hh (List.mem_of_getLast? hk))

/-- Calls that make a graph of two branches, put a layer into one of them, and put another layer
in the place of one that was there. -/
def branches : List Edit := [
  .addInput (.source "x" [1, 2]),
  .insert ⟨"a", [[1, 2]], [[1, 2]], .float32, .flatten⟩ [0] [],
  .insert ⟨"b", [[1, 2]], [[1, 2]], .float32, .flatten⟩ [0, 0] [],
  .insert ⟨"out", [[1, 2], [1, 2]], [[1, 2]], .float32, .add .linear⟩ [1, 2] [],
  .insert ⟨"c", [[1, 2]], [[1, 2]], .float32, .flatten⟩ [2] [3],
  .replace 1 ⟨"d", [[1, 2]], [[1, 2]], .float32, .activation .relu⟩]

/-- A graph with two branches, of which one was inserted late. -/
theorem between_branches :
    let g := (history {} branches).graph
    Reachable g ∧ g.verify = .ok () ∧ g.order = [0, 5, 2, 4, 3] ∧
      ReflTransGen g.Feeds 0 5 ∧ ReflTransGen g.Feeds 5 3 ∧
      ∀ walk, (5 :: walk).IsChain g.Feeds → (5 :: walk).length ≤ 5 := by
  intro g
  have hr : Reachable g := reachable_history {} branches
  have hv : g.verify = .ok () := by decide
  obtain ⟨first, last, hfirst, hlast, hall⟩ := node_between_input_and_last hr hv
  have hinput : g.input? = some 0 := by decide
  have houtput : g.output? = some 3 := by decide
  obtain rfl := Option.some.inj (hfirst.symm.trans hinput)
  obtain rfl := Option.some.inj (hlast.symm.trans houtput)
  obtain ⟨hfrom, hto, _, hwalk⟩ := hall 5 (by decide)
  exact ⟨hr, hv, by decide, hfrom, hto, fun walk hw => (hwalk walk hw).1⟩

end Graph

end NeuralC
