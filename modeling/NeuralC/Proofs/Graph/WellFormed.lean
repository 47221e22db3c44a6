import Mathlib.Data.List.InsertIdx
import Mathlib.Data.List.Nodup
import NeuralC.Graph.Edit
import NeuralC.Graph.Verify
import NeuralC.Proofs.Work

/-!
# NeuralC.Proofs.Graph.WellFormed

When the order and the edges of a graph agree.  `Sequenced` says that the order
lists each node once, and that edges stand in both lists equally often and run
forward in the order.  `Linked`, on which every pass relies, adds that no edge
leads out of the graph, and `WellFormed` that the first node is an input.

That a node stands in front of another is said by `Before`, a sublist of the
order: insertions and deletions keep sublists, so an edit never has to shift
positions.  `before_iff_idxOf` gives the positions back.
-/

namespace NeuralC

namespace Graph

/-! ## Nodes -/

/-- A handle is live when there is a node under it. -/
theorem contains_iff {g : Graph} {h : Handle} : g.contains h = true ↔ ∃ n, g.get? h = some n := by
  rw [contains, Option.isSome_iff_exists]

/-- There is nothing yet under handles from the fresh one on. -/
theorem get?_eq_none_of_fresh_le {g : Graph} {h : Handle} (hh : g.fresh ≤ h) :
    g.get? h = none := by
  rw [get?, List.getElem?_eq_none hh, Option.join_none]

/-- Looking up a handle succeeds on live ones. -/
theorem node_eq_ok {g : Graph} {h : Handle} {n : Node} :
    g.node h = .ok n ↔ g.get? h = some n := by
  rw [node]
  cases g.get? h <;> simp [present]

theorem nameOf_of_get? {g : Graph} {h : Handle} {n : Node} (hn : g.get? h = some n) :
    g.nameOf h = n.name := by
  rw [nameOf, hn, Option.map_some, Option.getD_some]

/-- Names of nodes that are looked up are the names of their handles. -/
theorem map_name_of_mapM {g : Graph} {hs : List Handle} {ns : List Node}
    (hns : hs.mapM g.node = .ok ns) : ns.map Node.name = hs.map g.nameOf := by
  rw [mapM_eq_ok] at hns
  induction hns with
  | nil => rfl
  | cons hn _ ih => rw [List.map_cons, List.map_cons, ih, nameOf_of_get? (node_eq_ok.mp hn)]

/-! ## Places -/

theorem position?_eq_some {g : Graph} {h : Handle} {i : Nat} :
    g.position? h = some i ↔ h ∈ g.order ∧ g.order.idxOf h = i := by
  rw [position?]
  by_cases hm : h ∈ g.order
  · obtain ⟨j, hj⟩ := Option.isSome_iff_exists.mp (List.isSome_idxOf?.mpr hm)
    have hij : g.order.idxOf h = j := by rw [List.idxOf_eq_getD_idxOf?, hj, Option.getD_some]
    rw [hj, hij]
    simp [hm]
  · rw [List.idxOf?_eq_none_iff.mpr hm]
    simp [hm]

/-- The node in place 0 is the first. -/
theorem position?_eq_zero {g : Graph} {h : Handle} :
    g.position? h = some 0 ↔ g.input? = some h := by
  rw [position?_eq_some, input?]
  cases g.order with
  | nil => simp
  | cons x xs =>
      by_cases hx : x = h
      · simp [hx]
      · simp [hx]

/-- The first node stays the first when another is taken out. -/
theorem head?_erase_of_ne {order : List Handle} {h : Handle} (hh : order.head? ≠ some h) :
    (order.erase h).head? = order.head? := by
  cases order with
  | nil => rfl
  | cons x xs =>
      have hx : (x == h) = false := beq_false_of_ne fun he => hh (by rw [he]; rfl)
      rw [List.erase_cons_tail (by simp [hx])]
      rfl

/-- A node stands behind as many others as come before it. -/
theorem idxOf_of_order_eq {g : Graph} {pre post : List Handle} {h : Handle}
    (hn : g.order.Nodup) (ho : g.order = pre ++ h :: post) : g.order.idxOf h = pre.length := by
  rw [ho, List.nodup_middle, List.nodup_cons] at hn
  have hpre : h ∉ pre := fun hm => hn.1 (List.mem_append_left _ hm)
  rw [ho, List.idxOf_append_of_notMem hpre, List.idxOf_cons_self, Nat.add_zero]

/-- Whether the order has `p` and, behind it, `h`. -/
def Before (g : Graph) (p h : Handle) : Prop := [p, h].Sublist g.order

/-- Of two parts of the order, the first stands before the second. -/
theorem before_of_append {g : Graph} {xs ys : List Handle} {p h : Handle}
    (ho : g.order = xs ++ ys) (hp : p ∈ xs) (hh : h ∈ ys) : g.Before p h := by
  rw [Before, ho]
  exact (List.singleton_sublist.mpr hp).append (List.singleton_sublist.mpr hh)

theorem before_of_cons {g : Graph} {xs ys : List Handle} {h s : Handle}
    (ho : g.order = xs ++ h :: ys) (hs : s ∈ ys) : g.Before h s := by
  rw [Before, ho]
  exact ((List.singleton_sublist.mpr hs).cons_cons h).trans (List.sublist_append_right _ _)

/-- A node stands before another when its place is lower. -/
theorem before_iff_idxOf {g : Graph} (hn : g.order.Nodup) {p h : Handle} :
    g.Before p h ↔ p ∈ g.order ∧ h ∈ g.order ∧ g.order.idxOf p < g.order.idxOf h := by
  constructor
  · intro hb
    obtain ⟨xs, ys, ho, hp, hh⟩ := List.cons_sublist_iff.mp hb
    have hh' : h ∈ ys := List.singleton_sublist.mp hh
    rw [ho] at hn ⊢
    have hx : h ∉ xs := fun hm => List.disjoint_of_nodup_append hn hm hh'
    refine ⟨List.mem_append_left _ hp, List.mem_append_right _ hh', ?_⟩
    rw [List.idxOf_append_of_mem hp, List.idxOf_append_of_notMem hx]
    have hlt := List.idxOf_lt_length_of_mem hp
    omega
  · rintro ⟨hp, hh, hlt⟩
    have ho := (List.take_append_drop (g.order.idxOf h) g.order).symm
    refine before_of_append ho ((List.mem_take_iff_idxOf_lt hp).mpr hlt) ?_
    have hm : h ∈ g.order.take (g.order.idxOf h) ++ g.order.drop (g.order.idxOf h) := by
      rw [List.take_append_drop]
      exact hh
    refine (List.mem_append.mp hm).resolve_left fun hl => ?_
    have hself := (List.mem_take_iff_idxOf_lt hh).mp hl
    omega

/-- Standing before is transitive. -/
theorem before_trans {g : Graph} (hn : g.order.Nodup) {a b c : Handle} (hab : g.Before a b)
    (hbc : g.Before b c) : g.Before a c := by
  rw [before_iff_idxOf hn] at *
  exact ⟨hab.1, hbc.2.1, by omega⟩

/-- No node stands before itself. -/
theorem before_irrefl {g : Graph} (hn : g.order.Nodup) (a : Handle) : ¬ g.Before a a := by
  rw [before_iff_idxOf hn]
  rintro ⟨_, _, hlt⟩
  exact Nat.lt_irrefl _ hlt

theorem Before.left_mem {g : Graph} {p h : Handle} (hb : g.Before p h) : p ∈ g.order :=
  hb.subset (by simp)

/-! ## Invariants -/

/-- The order lists the nodes, and the edges between them run forward in it. -/
structure Sequenced (g : Graph) : Prop where
  /-- No node stands in the order twice. -/
  nodup : g.order.Nodup
  /-- The order lists exactly the nodes. -/
  mem_order : ∀ {h}, h ∈ g.order ↔ g.contains h = true
  /-- An edge stands among the successors of its producer as often as among the
  predecessors of its reader. -/
  mutual_count : ∀ {a b m n}, g.get? a = some m → g.get? b = some n →
    m.succs.count b = n.preds.count a
  /-- A node comes behind its predecessors. -/
  forward : ∀ {h n p}, g.get? h = some n → p ∈ n.preds → g.Before p h

/-- The order and the edges agree, and no edge leads out of the graph. -/
structure Linked (g : Graph) : Prop extends Sequenced g where
  /-- A successor is a node. -/
  succ_live : ∀ {h n s}, g.get? h = some n → s ∈ n.succs → g.contains s = true

/-- The order and the edges agree, and the first node is an input. -/
structure WellFormed (g : Graph) : Prop extends Linked g where
  /-- The first node, where there is one, is an input. -/
  first_isInput : ∀ {h n}, g.input? = some h → g.get? h = some n → n.layer.isInput = true

namespace Sequenced

variable {g : Graph} (hg : g.Sequenced)

include hg

/-- Handles in the order are live. -/
theorem exists_get? {h : Handle} (hh : h ∈ g.order) : ∃ n, g.get? h = some n :=
  contains_iff.mp (hg.mem_order.mp hh)

/-- Live handles are in the order. -/
theorem mem_of_get? {h : Handle} {n : Node} (hn : g.get? h = some n) : h ∈ g.order :=
  hg.mem_order.mpr (contains_iff.mpr ⟨n, hn⟩)

/-- A predecessor is a node. -/
theorem pred_live {h : Handle} {n : Node} {p : Handle} (hn : g.get? h = some n)
    (hp : p ∈ n.preds) : g.contains p = true :=
  hg.mem_order.mp (hg.forward hn hp).left_mem

/-- What one side of an edge lists, the other lists too. -/
theorem mem_succs_iff {a b : Handle} {m n : Node} (ha : g.get? a = some m)
    (hb : g.get? b = some n) : b ∈ m.succs ↔ a ∈ n.preds := by
  rw [← List.count_pos_iff, ← List.count_pos_iff, hg.mutual_count ha hb]

/-- The predecessors of a node are among those in front of it. -/
theorem mem_of_preds {xs ys : List Handle} {h p : Handle} {n : Node}
    (ho : g.order = xs ++ h :: ys) (hn : g.get? h = some n) (hp : p ∈ n.preds) : p ∈ xs := by
  obtain ⟨hpo, _, hlt⟩ := (before_iff_idxOf hg.nodup).mp (hg.forward hn hp)
  rw [idxOf_of_order_eq hg.nodup ho] at hlt
  have hmem := (List.mem_take_iff_idxOf_lt hpo).mpr hlt
  rwa [ho, List.take_left] at hmem

/-- The order is found to be a topological one. -/
theorem isTopological : g.isTopological = true := by
  rw [Graph.isTopological, List.all_eq_true]
  rintro ⟨h, place⟩ hmem
  have hplace : g.order[place]? = some h := List.mk_mem_zipIdx_iff_getElem?.mp hmem
  obtain ⟨hlt, rfl⟩ := List.getElem?_eq_some_iff.mp hplace
  rw [Option.all_eq_true]
  intro n hn
  rw [List.all_eq_true]
  intro p hp
  obtain ⟨hpo, _, hbefore⟩ := (before_iff_idxOf hg.nodup).mp (hg.forward hn hp)
  rw [hg.nodup.idxOf_getElem] at hbefore
  rw [position?_eq_some.mpr ⟨hpo, rfl⟩]
  exact decide_eq_true hbefore

/-- No node reads itself. -/
theorem not_mem_preds {h : Handle} {n : Node} (hn : g.get? h = some n) : h ∉ n.preds :=
  fun hp => before_irrefl hg.nodup h (hg.forward hn hp)

/-- Nothing comes before the first node, so it has no predecessors. -/
theorem preds_first {h : Handle} {n : Node} (hh : g.input? = some h) (hn : g.get? h = some n) :
    n.preds = [] := by
  rw [List.eq_nil_iff_forall_not_mem]
  intro p hp
  have hb := (before_iff_idxOf hg.nodup).mp (hg.forward hn hp)
  have h0 := (position?_eq_some.mp (position?_eq_zero.mpr hh)).2
  omega

/-- Nothing comes behind the last node, so no node reads it. -/
theorem last_not_mem_preds {h k : Handle} {n : Node} (hh : g.output? = some h)
    (hn : g.get? k = some n) : h ∉ n.preds := by
  intro hp
  obtain ⟨xs, hxs⟩ := List.getLast?_eq_some_iff.mp hh
  obtain ⟨_, hko, hlt⟩ := (before_iff_idxOf hg.nodup).mp (hg.forward hn hp)
  have hidx := idxOf_of_order_eq hg.nodup hxs
  have hend := List.idxOf_lt_length_of_mem hko
  have hlen : g.order.length = xs.length + 1 := by rw [hxs]; simp
  omega

end Sequenced

namespace Linked

variable {g : Graph} (hg : g.Linked)

include hg

/-- A node stands before those that read it. -/
theorem forward_succ {h : Handle} {n : Node} {s : Handle} (hn : g.get? h = some n)
    (hs : s ∈ n.succs) : g.Before h s := by
  obtain ⟨r, hr⟩ := contains_iff.mp (hg.succ_live hn hs)
  exact hg.forward hr ((hg.mem_succs_iff hn hr).mp hs)

/-- No node reads itself. -/
theorem not_mem_succs {h : Handle} {n : Node} (hn : g.get? h = some n) : h ∉ n.succs :=
  fun hs => before_irrefl hg.nodup h (hg.forward_succ hn hs)

/-- No node reads the last node, so it has no successors. -/
theorem succs_last {h : Handle} {n : Node} (hh : g.output? = some h) (hn : g.get? h = some n) :
    n.succs = [] := by
  rw [List.eq_nil_iff_forall_not_mem]
  intro s hs
  obtain ⟨r, hr⟩ := contains_iff.mp (hg.succ_live hn hs)
  exact hg.last_not_mem_preds hh hr ((hg.mem_succs_iff hn hr).mp hs)

end Linked

/-- Order and edges agree in a graph that differs in layers and records only. -/
theorem Linked.of_edges {g g' : Graph} (hg : g.Linked) (ho : g'.order = g.order)
    (hget : ∀ k, ∃ f : Node → Node, (∀ n, (f n).preds = n.preds ∧ (f n).succs = n.succs) ∧
      g'.get? k = (g.get? k).map f) : g'.Linked := by
  have hnode : ∀ {k n'}, g'.get? k = some n' →
      ∃ n, g.get? k = some n ∧ n'.preds = n.preds ∧ n'.succs = n.succs := by
    intro k n' hn'
    obtain ⟨f, hf, hk⟩ := hget k
    rw [hk] at hn'
    obtain ⟨n, hn, rfl⟩ := Option.map_eq_some_iff.mp hn'
    exact ⟨n, hn, hf n⟩
  have hcontains : ∀ k, g'.contains k = g.contains k := by
    intro k
    obtain ⟨f, _, hk⟩ := hget k
    rw [contains, contains, hk, Option.isSome_map]
  refine ⟨⟨?_, ?_, ?_, ?_⟩, ?_⟩
  · rw [ho]
    exact hg.nodup
  · intro k
    rw [ho, hcontains]
    exact hg.mem_order
  · intro a b m' n' hm' hn'
    obtain ⟨m, hm, _, hsuccs⟩ := hnode hm'
    obtain ⟨n, hn, hpreds, _⟩ := hnode hn'
    rw [hsuccs, hpreds, hg.mutual_count hm hn]
  · intro h n' p hn' hp
    obtain ⟨n, hn, hpreds, _⟩ := hnode hn'
    rw [Before, ho]
    exact hg.forward hn (hpreds ▸ hp)
  · intro h n' s hn' hs
    obtain ⟨n, hn, _, hsuccs⟩ := hnode hn'
    rw [hcontains]
    exact hg.succ_live hn (hsuccs ▸ hs)

/-- A change of a node that keeps its edges keeps the graph linked. -/
theorem Linked.modify {g : Graph} {h : Handle} {f : Node → Node} (hg : g.Linked)
    (hf : ∀ n, (f n).preds = n.preds ∧ (f n).succs = n.succs) : (g.modify h f).Linked := by
  refine hg.of_edges (order_modify g h f) fun k => ?_
  rw [get?_modify]
  split
  · exact ⟨f, hf, rfl⟩
  · exact ⟨id, fun n => ⟨rfl, rfl⟩, by simp⟩

end Graph

end NeuralC
