import NeuralC.Proofs.Graph.Splice
import NeuralC.Proofs.Graph.WellFormed

/-!
# NeuralC.Proofs.Graph.Edits

What the edits of a graph do, and that they keep it well formed.  The section
is layered: `get?_vacate`, `get?_allocate` and the walks of
`NeuralC.Proofs.Graph.Splice` give the node of every handle after an edit; the
`…_cases` lemmas say once what an edit that succeeds has checked and changed;
from these follow `WellFormed.insert`, `WellFormed.delete` and
`WellFormed.replace`.

In a linked graph deletion and replacement are substitutions: `get?_delete` and
`get?_replace` have no trace left of single occurrences.
-/

namespace NeuralC

namespace Graph

/-! ## Slots -/

/-- Vacating a slot takes one node away. -/
theorem get?_vacate (g : Graph) (h k : Handle) :
    (g.vacate h).get? k = if k = h then none else g.get? k := by
  rw [get?, vacate, List.getElem?_set]
  by_cases hk : k = h
  · rw [if_pos hk, if_pos hk.symm]
    split <;> rfl
  · rw [if_neg hk, if_neg fun he => hk he.symm, get?]

/-- A new node is found under the fresh handle, all others where they were. -/
theorem get?_allocate (g : Graph) (n : Node) (place : Nat) (k : Handle) :
    (g.allocate n place).get? k = if k = g.fresh then some n else g.get? k := by
  rw [get?, allocate, fresh]
  rcases Nat.lt_trichotomy k g.slots.length with hlt | heq | hgt
  · rw [if_neg (Nat.ne_of_lt hlt), List.getElem?_append_left hlt, get?]
  · rw [if_pos heq, heq, List.getElem?_concat_length, Option.join_some]
  · rw [if_neg (Nat.ne_of_gt hgt), get?_eq_none_of_fresh_le (Nat.le_of_lt hgt),
      List.getElem?_eq_none (by rw [List.length_append]; exact hgt), Option.join_none]

theorem get?_fresh (g : Graph) : g.get? g.fresh = none := get?_eq_none_of_fresh_le (Nat.le_refl _)

/-- A handle that is in use is not the next one. -/
theorem ne_fresh {g : Graph} {k : Handle} (hk : g.contains k = true) : k ≠ g.fresh := by
  rintro rfl
  obtain ⟨n, hn⟩ := contains_iff.mp hk
  rw [get?_fresh] at hn
  contradiction

/-- Inserting behind a front puts the new element there. -/
theorem insertIdx_length_append {α : Type} (xs ys : List α) (a : α) :
    (xs ++ ys).insertIdx xs.length a = xs ++ a :: ys := by
  induction xs with
  | nil => simp
  | cons x xs ih => simp [ih]

/-- The order with a new node, as what stands in front of it and behind. -/
theorem order_allocate {g : Graph} {n : Node} {place : Nat} (hp : place ≤ g.order.length) :
    (g.allocate n place).order = g.order.take place ++ g.fresh :: g.order.drop place := by
  have hlen : (g.order.take place).length = place := List.length_take_of_le hp
  have hins := insertIdx_length_append (g.order.take place) (g.order.drop place) g.fresh
  rw [List.take_append_drop, hlen] at hins
  exact hins

/-! ## Adding the input -/

/-- What the place of an input has been checked for. -/
theorem inputPlace_eq_ok {g : Graph} {layer : Layer} {place : Nat}
    (hp : g.inputPlace layer = .ok place) :
    g.order = [] ∧ layer.isInput = true ∧ place = 0 := by
  unfold inputPlace at hp
  split at hp
  · contradiction
  · next he =>
      split at hp
      · contradiction
      · next hl =>
          cases hp
          exact ⟨by simpa using he, by simpa using hl, rfl⟩

/-- What adding an input has checked and changed. -/
theorem addInput_cases {g g' : Graph} {layer : Layer} {h : Handle}
    (hi : g.addInput layer = .ok (g', h)) :
    g.order = [] ∧ layer.isInput = true ∧ h = g.fresh ∧
      g' = g.allocate ⟨layer, none, [], []⟩ 0 := by
  unfold addInput at hi
  split at hi
  · contradiction
  · next place hplace =>
      obtain ⟨he, hl, rfl⟩ := inputPlace_eq_ok hplace
      cases hi
      exact ⟨he, hl, rfl, rfl⟩

/-! ## Insertion -/

end Graph

/-- The node with new edges to and from a neighbour. -/
def Node.link (h : Handle) (toIt fromIt : Nat) (n : Node) : Node :=
  { n with
    succs := n.succs ++ List.replicate toIt h
    preds := n.preds ++ List.replicate fromIt h }

namespace Graph

/-- What the place of a new node has been checked for. -/
theorem insertPlace_eq_ok {g : Graph} {layer : Layer} {preds succs : List Handle} {place : Nat}
    (hp : g.insertPlace layer preds succs = .ok place) :
    (∀ k ∈ preds ++ succs, g.contains k = true) ∧ place = g.insertionPoint succs ∧ 0 < place ∧
      ∀ p ∈ preds, ∀ i, g.position? p = some i → i < place := by
  unfold insertPlace at hp
  split at hp
  · contradiction
  · split at hp
    · contradiction
    · next hk =>
        simp only at hp
        split at hp
        · contradiction
        · next hz =>
            split at hp
            · contradiction
            · next hlate =>
                cases hp
                refine ⟨?_, rfl, Nat.pos_of_ne_zero hz, ?_⟩
                · intro k hkm
                  simpa using List.find?_eq_none.mp hk k hkm
                · intro p hpm i hpi
                  have hany := List.find?_eq_none.mp hlate p hpm
                  rw [hpi] at hany
                  simpa using hany

/-- What an insertion has checked and changed. -/
theorem insert_cases {g g' : Graph} {layer : Layer} {preds succs : List Handle} {h : Handle}
    (hi : g.insert layer preds succs = .ok (g', h)) :
    (∀ k ∈ preds ++ succs, g.contains k = true) ∧ h = g.fresh ∧
      0 < g.insertionPoint succs ∧
      (∀ p ∈ preds, ∀ i, g.position? p = some i → i < g.insertionPoint succs) ∧
      g' = ((g.allocate ⟨layer, none, preds, succs⟩ (g.insertionPoint succs)).feed h preds).draw
        h succs := by
  unfold insert at hi
  split at hi
  · contradiction
  · next place hplace =>
      obtain ⟨hk, rfl, hpos, hlate⟩ := insertPlace_eq_ok hplace
      cases hi
      exact ⟨hk, rfl, hpos, hlate, rfl⟩

/-- The insertion point lies in front of every successor. -/
theorem insertionPoint_le {g : Graph} {succs : List Handle} {s : Handle} {i : Nat}
    (hs : s ∈ succs) (hi : g.position? s = some i) : g.insertionPoint succs ≤ i := by
  have hm : i ∈ succs.filterMap g.position? := List.mem_filterMap.mpr ⟨s, hs, hi⟩
  rw [insertionPoint]
  cases hmin : (succs.filterMap g.position?).min? with
  | none => rw [List.min?_eq_none_iff.mp hmin] at hm; contradiction
  | some m => exact (List.min?_eq_some_iff.mp hmin).2 i hm

theorem insertionPoint_le_length (g : Graph) (succs : List Handle) :
    g.insertionPoint succs ≤ g.order.length := by
  rw [insertionPoint]
  cases hmin : (succs.filterMap g.position?).min? with
  | none => exact Nat.le_refl _
  | some m =>
      obtain ⟨s, _, hs⟩ := List.mem_filterMap.mp (List.min?_eq_some_iff.mp hmin).1
      obtain ⟨hm, hi⟩ := position?_eq_some.mp hs
      have hlt := List.idxOf_lt_length_of_mem hm
      rw [hi] at hlt
      exact Nat.le_of_lt hlt

/-- The nodes after an insertion. -/
theorem get?_insert {g g' : Graph} {layer : Layer} {preds succs : List Handle} {h : Handle}
    (hi : g.insert layer preds succs = .ok (g', h)) (k : Handle) :
    g'.get? k = if k = h then some ⟨layer, none, preds, succs⟩
      else (g.get? k).map (Node.link h (preds.count k) (succs.count k)) := by
  obtain ⟨hlive, rfl, _, _, rfl⟩ := insert_cases hi
  rw [draw, get?_foldl_modify, feed, get?_foldl_modify, get?_allocate]
  by_cases hk : k = g.fresh
  · have hnot : ∀ xs : List Handle, xs ⊆ preds ++ succs → xs.count k = 0 := by
      intro xs hxs
      rw [List.count_eq_zero, hk]
      exact fun hm => ne_fresh (hlive _ (hxs hm)) rfl
    rw [if_pos hk, if_pos hk, hnot preds (List.subset_append_left _ _),
      hnot succs (List.subset_append_right _ _)]
    rfl
  · rw [if_neg hk, if_neg hk, Option.map_map]
    congr 1
    funext n
    rw [Function.comp_apply, Node.iterate_addSucc, Node.iterate_addPred, Node.link]

/-- A node is inserted in front of the first of its successors. -/
theorem order_insert {g g' : Graph} {layer : Layer} {preds succs : List Handle} {h : Handle}
    (hi : g.insert layer preds succs = .ok (g', h)) :
    g'.order = g.order.take (g.insertionPoint succs) ++
      h :: g.order.drop (g.insertionPoint succs) := by
  obtain ⟨_, rfl, _, _, rfl⟩ := insert_cases hi
  rw [draw, order_foldl_modify, feed, order_foldl_modify,
    order_allocate (insertionPoint_le_length g succs)]

/-- Inserting a node uses up one handle. -/
theorem fresh_insert {g g' : Graph} {layer : Layer} {preds succs : List Handle} {h : Handle}
    (hi : g.insert layer preds succs = .ok (g', h)) : g'.fresh = g.fresh + 1 := by
  obtain ⟨-, -, -, -, rfl⟩ := insert_cases hi
  rw [draw, fresh_foldl_modify, feed, fresh_foldl_modify]
  simp [fresh, allocate]

section Insert

variable {g g' : Graph} {layer : Layer} {preds succs : List Handle} {h : Handle}
  (hg : g.Linked) (hi : g.insert layer preds succs = .ok (g', h))

include hi

theorem sublist_insert : g.order.Sublist g'.order := by
  rw [order_insert hi]
  conv_lhs => rw [← List.take_append_drop (g.insertionPoint succs) g.order]
  exact (List.Sublist.refl _).append (List.sublist_cons_self _ _)

/-- The order gains the new handle. -/
theorem mem_order_insert {k : Handle} : k ∈ g'.order ↔ k = h ∨ k ∈ g.order := by
  rw [order_insert hi, List.mem_append, List.mem_cons, or_left_comm, ← List.mem_append,
    List.take_append_drop]

/-- The new handle is the only one that comes to life. -/
theorem contains_insert {k : Handle} : g'.contains k = true ↔ k = h ∨ g.contains k = true := by
  rw [contains_iff, get?_insert hi, contains_iff]
  by_cases hk : k = h
  · rw [if_pos hk]
    simp [hk]
  · rw [if_neg hk]
    simp [hk]

/-- The new handle stands in no list of the arguments. -/
theorem count_insert_eq_zero : preds.count h = 0 ∧ succs.count h = 0 := by
  obtain ⟨hlive, hfresh, _⟩ := insert_cases hi
  constructor
  · exact List.count_eq_zero.mpr fun hm => ne_fresh (hlive h (List.mem_append_left _ hm)) hfresh
  · exact List.count_eq_zero.mpr fun hm => ne_fresh (hlive h (List.mem_append_right _ hm)) hfresh

include hg

/-- The new handle stands in no list of the graph. -/
theorem Linked.count_eq_zero_of_insert {k : Handle} {n : Node} (hn : g.get? k = some n) :
    n.preds.count h = 0 ∧ n.succs.count h = 0 := by
  obtain ⟨_, hfresh, _⟩ := insert_cases hi
  constructor
  · exact List.count_eq_zero.mpr fun hm => ne_fresh (hg.pred_live hn hm) hfresh
  · exact List.count_eq_zero.mpr fun hm => ne_fresh (hg.succ_live hn hm) hfresh

theorem Linked.nodup_insert : g'.order.Nodup := by
  obtain ⟨_, hfresh, _⟩ := insert_cases hi
  rw [order_insert hi, List.nodup_middle, List.nodup_cons, List.take_append_drop]
  refine ⟨fun hm => ?_, hg.nodup⟩
  exact ne_fresh (hg.mem_order.mp hm) hfresh

/-- After an insertion every edge still leads to a node. -/
theorem Linked.succ_live_insert {k : Handle} {n : Node} {s : Handle} (hn : g'.get? k = some n)
    (hs : s ∈ n.succs) : g'.contains s = true := by
  rw [contains_insert hi]
  rw [get?_insert hi] at hn
  by_cases hk : k = h
  · rw [if_pos hk] at hn
    injection hn with hn
    subst hn
    exact .inr ((insert_cases hi).1 s (List.mem_append_right _ hs))
  · rw [if_neg hk] at hn
    obtain ⟨m, hm, rfl⟩ := Option.map_eq_some_iff.mp hn
    rcases List.mem_append.mp hs with hs | hs
    · exact .inr (hg.succ_live hm hs)
    · exact .inl (List.eq_of_mem_replicate hs)

/-- After an insertion every edge stands on both of its sides. -/
theorem Linked.mutual_insert {a b : Handle} {m n : Node} (hm : g'.get? a = some m)
    (hn : g'.get? b = some n) : m.succs.count b = n.preds.count a := by
  obtain ⟨hp, hs⟩ := count_insert_eq_zero hi
  rw [get?_insert hi] at hm hn
  by_cases ha : a = h <;> by_cases hb : b = h
  · rw [if_pos ha] at hm
    rw [if_pos hb] at hn
    injection hm with hm
    injection hn with hn
    subst hm hn
    rw [ha, hb, hp, hs]
  · rw [if_pos ha] at hm
    rw [if_neg hb] at hn
    injection hm with hm
    obtain ⟨n', hn', rfl⟩ := Option.map_eq_some_iff.mp hn
    subst hm
    rw [ha, Node.link, List.count_append, List.count_replicate_self,
      (hg.count_eq_zero_of_insert hi hn').1, Nat.zero_add]
  · rw [if_neg ha] at hm
    rw [if_pos hb] at hn
    injection hn with hn
    obtain ⟨m', hm', rfl⟩ := Option.map_eq_some_iff.mp hm
    subst hn
    rw [hb, Node.link, List.count_append, List.count_replicate_self,
      (hg.count_eq_zero_of_insert hi hm').2, Nat.zero_add]
  · rw [if_neg ha] at hm
    rw [if_neg hb] at hn
    obtain ⟨m', hm', rfl⟩ := Option.map_eq_some_iff.mp hm
    obtain ⟨n', hn', rfl⟩ := Option.map_eq_some_iff.mp hn
    have hab := hg.mutual_count hm' hn'
    simp [Node.link, List.count_replicate, Ne.symm ha, Ne.symm hb, hab]

/-- The predecessors stand in front of the insertion point. -/
theorem Linked.pred_before_insert {p : Handle} (hp : p ∈ preds) : g'.Before p h := by
  obtain ⟨hlive, _, _, hearly, _⟩ := insert_cases hi
  have hpo := hg.mem_order.mpr (hlive p (List.mem_append_left _ hp))
  have hlt := hearly p hp _ (position?_eq_some.mpr ⟨hpo, rfl⟩)
  exact before_of_append (order_insert hi) ((List.mem_take_iff_idxOf_lt hpo).mpr hlt) (by simp)

/-- The successors stand behind it. -/
theorem Linked.succ_behind_insert {s : Handle} (hs : s ∈ succs) : g'.Before h s := by
  have hso := hg.mem_order.mpr ((insert_cases hi).1 s (List.mem_append_right _ hs))
  have hle := insertionPoint_le hs (position?_eq_some.mpr ⟨hso, rfl⟩)
  refine before_of_cons (order_insert hi) ?_
  have hmem := hso
  rw [← List.take_append_drop (g.insertionPoint succs) g.order] at hmem
  refine (List.mem_append.mp hmem).resolve_left fun ht => ?_
  have hlt := (List.mem_take_iff_idxOf_lt hso).mp ht
  omega

/-- After an insertion every edge still leads forward. -/
theorem Linked.forward_insert {k : Handle} {n : Node} {p : Handle} (hn : g'.get? k = some n)
    (hp : p ∈ n.preds) : g'.Before p k := by
  rw [get?_insert hi] at hn
  by_cases hk : k = h
  · rw [if_pos hk] at hn
    injection hn with hn
    subst hn hk
    exact hg.pred_before_insert hi hp
  · rw [if_neg hk] at hn
    obtain ⟨m, hm, rfl⟩ := Option.map_eq_some_iff.mp hn
    rcases List.mem_append.mp hp with hp | hp
    · exact (hg.forward hm hp).trans (sublist_insert hi)
    · obtain ⟨hcount, rfl⟩ := List.mem_replicate.mp hp
      exact hg.succ_behind_insert hi (List.count_pos_iff.mp (Nat.pos_of_ne_zero hcount))

/-- An insertion keeps order and edges in agreement. -/
theorem Linked.insert : g'.Linked where
  nodup := hg.nodup_insert hi
  mem_order := by
    intro k
    rw [mem_order_insert hi, contains_insert hi, hg.mem_order]
  succ_live := hg.succ_live_insert hi
  mutual_count := hg.mutual_insert hi
  forward := hg.forward_insert hi

end Insert

/-! ## Deletion -/

end Graph

/-- The node with the neighbours of `n` in place of each edge to the node `h`
that `n` was. -/
def Node.bypass (h : Handle) (n m : Node) : Node :=
  { m with
    preds := substitute h n.preds m.preds
    succs := substitute h n.succs m.succs }

namespace Graph

/-- What a deletion has checked and changed. -/
theorem delete_cases {g g' : Graph} {h : Handle} (hd : g.delete h = .ok g') :
    ∃ n, g.get? h = some n ∧ h ∈ g.order ∧ g.input? ≠ some h ∧
      g' = ((g.vacate h).spliceSuccs h n.succs n.preds).splicePreds h n.preds n.succs := by
  unfold delete at hd
  split at hd
  · next place n hp hn =>
      split at hd
      · contradiction
      · next hz =>
          injection hd with hd
          refine ⟨n, hn, (position?_eq_some.mp hp).1, fun hf => hz ?_, hd.symm⟩
          rw [position?_eq_zero.mpr hf] at hp
          injection hp with hp
          exact hp.symm
  · contradiction

/-- Every node but the first can be deleted. -/
theorem exists_delete {g : Graph} {h : Handle} {n : Node} (hh : h ∈ g.order)
    (hn : g.get? h = some n) (hf : g.input? ≠ some h) : ∃ g', g.delete h = .ok g' := by
  have hplace : g.position? h = some (g.order.idxOf h) := position?_eq_some.mpr ⟨hh, rfl⟩
  have hne : g.order.idxOf h ≠ 0 := by
    intro h0
    rw [h0] at hplace
    exact hf (position?_eq_zero.mp hplace)
  simp only [delete, hplace, hn, if_neg hne]
  exact ⟨_, rfl⟩

/-- The order loses the handle that is deleted. -/
theorem order_delete {g g' : Graph} {h : Handle} (hd : g.delete h = .ok g') :
    g'.order = g.order.erase h := by
  obtain ⟨n, _, _, _, rfl⟩ := delete_cases hd
  rw [splicePreds, order_foldl_modify, spliceSuccs, order_foldl_modify, vacate]

/-- A pair of nodes that stay keeps its order. -/
theorem before_delete {g g' : Graph} {h p k : Handle} (hd : g.delete h = .ok g') (hp : p ≠ h)
    (hk : k ≠ h) (hb : g.Before p k) : g'.Before p k := by
  have hsub := hb.erase h
  rw [List.erase_of_not_mem (by simp [hp.symm, hk.symm])] at hsub
  rw [Before, order_delete hd]
  exact hsub

section Delete

variable {g g' : Graph} {h : Handle} {n : Node}
  (hg : g.Linked) (hd : g.delete h = .ok g') (hn : g.get? h = some n)

include hg hd hn

/-- The nodes after a deletion: each edge to the deleted node has given way to
the node's own edges.  Every occurrence goes, since a neighbour is visited as
often as it lists the node. -/
theorem Linked.get?_delete (k : Handle) :
    g'.get? k = if k = h then none else (g.get? k).map (Node.bypass h n) := by
  obtain ⟨n', hn', _, _, rfl⟩ := delete_cases hd
  rw [hn] at hn'
  injection hn' with hn'
  subst hn'
  rw [splicePreds, get?_foldl_modify, spliceSuccs, get?_foldl_modify, get?_vacate]
  by_cases hk : k = h
  · rw [if_pos hk, if_pos hk]
    rfl
  · rw [if_neg hk, if_neg hk, Option.map_map]
    cases hm : g.get? k with
    | none => rfl
    | some m =>
        rw [Option.map_some, Option.map_some, Function.comp_apply, Node.iterate_onSuccs,
          Node.iterate_onPreds, ← hg.mutual_count hm hn, hg.mutual_count hn hm,
          iterate_splice (hg.not_mem_succs hn), iterate_splice (hg.not_mem_preds hn)]
        rfl

/-- The deleted handle is the only one that dies. -/
theorem Linked.contains_delete {k : Handle} :
    g'.contains k = true ↔ k ≠ h ∧ g.contains k = true := by
  rw [contains_iff, hg.get?_delete hd hn, contains_iff]
  by_cases hk : k = h
  · rw [if_pos hk]
    simp [hk]
  · rw [if_neg hk]
    simp [hk]

/-- After a deletion every edge still leads to a node. -/
theorem Linked.succ_live_delete {k : Handle} {m : Node} {s : Handle} (hm : g'.get? k = some m)
    (hs : s ∈ m.succs) : g'.contains s = true := by
  rw [hg.contains_delete hd hn]
  rw [hg.get?_delete hd hn] at hm
  split at hm
  · contradiction
  · obtain ⟨m', hm', rfl⟩ := Option.map_eq_some_iff.mp hm
    rcases mem_substitute.mp hs with ⟨hne, hs⟩ | ⟨_, hs⟩
    · exact ⟨hne, hg.succ_live hm' hs⟩
    · exact ⟨fun he => hg.not_mem_succs hn (he ▸ hs), hg.succ_live hn hs⟩

/-- After a deletion every edge stands on both of its sides. -/
theorem Linked.mutual_delete {a b : Handle} {m r : Node} (hm : g'.get? a = some m)
    (hr : g'.get? b = some r) : m.succs.count b = r.preds.count a := by
  rw [hg.get?_delete hd hn] at hm hr
  split at hm
  · contradiction
  · next ha =>
      split at hr
      · contradiction
      · next hb =>
          obtain ⟨m', hm', rfl⟩ := Option.map_eq_some_iff.mp hm
          obtain ⟨r', hr', rfl⟩ := Option.map_eq_some_iff.mp hr
          calc (substitute h n.succs m'.succs).count b
              = m'.succs.count b + m'.succs.count h * n.succs.count b := count_substitute hb _ _
            _ = r'.preds.count a + n.preds.count a * r'.preds.count h := by
                rw [hg.mutual_count hm' hr', hg.mutual_count hm' hn, hg.mutual_count hn hr']
            _ = r'.preds.count a + r'.preds.count h * n.preds.count a := by rw [Nat.mul_comm]
            _ = (substitute h n.preds r'.preds).count a := (count_substitute ha _ _).symm

/-- After a deletion every edge still leads forward. -/
theorem Linked.forward_delete {k : Handle} {m : Node} {p : Handle} (hm : g'.get? k = some m)
    (hp : p ∈ m.preds) : g'.Before p k := by
  rw [hg.get?_delete hd hn] at hm
  split at hm
  · contradiction
  · next hk =>
      obtain ⟨m', hm', rfl⟩ := Option.map_eq_some_iff.mp hm
      rcases mem_substitute.mp hp with ⟨hne, hp⟩ | ⟨hh, hp⟩
      · exact before_delete hd hne hk (hg.forward hm' hp)
      · have hne : p ≠ h := fun he => hg.not_mem_preds hn (he ▸ hp)
        exact before_delete hd hne hk
          (before_trans hg.nodup (hg.forward hn hp) (hg.forward hm' hh))

end Delete

/-- A deletion keeps order and edges in agreement. -/
theorem Linked.delete {g g' : Graph} {h : Handle} (hg : g.Linked) (hd : g.delete h = .ok g') :
    g'.Linked := by
  obtain ⟨n, hn, _, _, _⟩ := delete_cases hd
  refine ⟨⟨?_, ?_, ?_, ?_⟩, ?_⟩
  · rw [order_delete hd]
    exact hg.nodup.erase h
  · intro k
    rw [order_delete hd, hg.nodup.mem_erase_iff, hg.contains_delete hd hn, hg.mem_order]
  · exact hg.mutual_delete hd hn
  · exact hg.forward_delete hd hn
  · exact hg.succ_live_delete hd hn

/-! ## Replacement -/

/-- What a replacement has checked and changed. -/
theorem replace_cases {g g' : Graph} {old h : Handle} {layer : Layer}
    (hr : g.replace old layer = .ok (g', h)) :
    ∃ n place, g.get? old = some n ∧ g.position? old = some place ∧
      (place = 0 → layer.isInput = true) ∧ h = g.fresh ∧
      g' = (((g.vacate old).allocate { n with layer := layer } place).spliceSuccs old [h]
        n.preds).splicePreds old [h] n.succs := by
  unfold replace at hr
  split at hr
  · next place n hp hn =>
      split at hr
      · contradiction
      · next hz =>
          simp only at hr
          injection hr with hr
          injection hr with hg hh
          subst hh
          exact ⟨n, place, hn, hp, fun h0 => by simpa [h0] using hz, rfl, hg.symm⟩
  · contradiction

theorem fresh_vacate (g : Graph) (h : Handle) : (g.vacate h).fresh = g.fresh :=
  List.length_set

end Graph

/-- The node with another handle in place of each edge to `old`. -/
def Node.rename (old h : Handle) (m : Node) : Node :=
  { m with
    preds := substitute old [h] m.preds
    succs := substitute old [h] m.succs }

namespace Graph

section Replace

variable {g g' : Graph} {old h : Handle} {layer : Layer} {n : Node}
  (hg : g.Linked) (hr : g.replace old layer = .ok (g', h)) (hn : g.get? old = some n)

include hr in
/-- A replacement gets a handle that was not in use. -/
theorem replace_eq_fresh : h = g.fresh := by
  obtain ⟨_, _, _, _, _, hh, _⟩ := replace_cases hr
  exact hh

include hg hr

/-- The new handle stands in no list of the graph. -/
theorem Linked.not_mem_of_replace {k : Handle} {m : Node} (hm : g.get? k = some m) :
    h ∉ m.preds ∧ h ∉ m.succs := by
  have hh := replace_eq_fresh hr
  exact ⟨fun hp => ne_fresh (hg.pred_live hm hp) hh, fun hs => ne_fresh (hg.succ_live hm hs) hh⟩

/-- The order after a replacement. -/
theorem Linked.order_replace : g'.order = substitute old [h] g.order := by
  obtain ⟨n, place, _, hp, _, rfl, rfl⟩ := replace_cases hr
  obtain ⟨hm, hidx⟩ := position?_eq_some.mp hp
  obtain ⟨xs, ys, ho, hxs⟩ := List.eq_append_cons_of_mem hm
  have hys : old ∉ ys := by
    have hnd := hg.nodup
    rw [ho, List.nodup_middle, List.nodup_cons] at hnd
    exact fun hy => hnd.1 (List.mem_append_right _ hy)
  have hplace : place = xs.length := by
    rw [← hidx, ho, List.idxOf_append_of_notMem hxs]
    simp
  rw [splicePreds, order_foldl_modify, spliceSuccs, order_foldl_modify, allocate, fresh_vacate,
    vacate, ho, List.erase_append_right _ hxs, List.erase_cons_head, hplace,
    insertIdx_length_append, substitute_append, substitute_of_not_mem hxs, substitute_cons,
    if_pos rfl, substitute_of_not_mem hys]
  rfl

include hn

/-- The nodes after a replacement. -/
theorem Linked.get?_replace (k : Handle) :
    g'.get? k = if k = h then some { n with layer := layer }
      else if k = old then none else (g.get? k).map (Node.rename old h) := by
  have hnot := hg.not_mem_of_replace hr hn
  obtain ⟨n', place, hn', _, _, hh, rfl⟩ := replace_cases hr
  rw [hn] at hn'
  injection hn' with hn'
  subst hn'
  have hold : old ∉ [h] := by
    rw [List.mem_singleton, hh]
    exact ne_fresh (contains_iff.mpr ⟨n, hn⟩)
  rw [splicePreds, get?_foldl_modify, spliceSuccs, get?_foldl_modify, get?_allocate,
    fresh_vacate, get?_vacate, ← hh]
  by_cases hk : k = h
  · rw [if_pos hk, if_pos hk, hk, List.count_eq_zero_of_not_mem hnot.1,
      List.count_eq_zero_of_not_mem hnot.2]
    rfl
  · rw [if_neg hk, if_neg hk]
    by_cases hko : k = old
    · rw [if_pos hko, if_pos hko]
      rfl
    · rw [if_neg hko, if_neg hko, Option.map_map]
      cases hm : g.get? k with
      | none => rfl
      | some m =>
          rw [Option.map_some, Option.map_some, Function.comp_apply, Node.iterate_onSuccs,
            Node.iterate_onPreds, ← hg.mutual_count hm hn, hg.mutual_count hn hm,
            iterate_splice hold, iterate_splice hold]
          rfl

/-- The node after a replacement that a node before it has become. -/
theorem Linked.exists_get?_replace {k : Handle} {m : Node} (hm : g'.get? k = some m) :
    ∃ j m', g.get? j = some m' ∧ k = (if j = old then h else j) ∧ j ≠ h ∧
      m.preds = substitute old [h] m'.preds ∧ m.succs = substitute old [h] m'.succs := by
  have hne : old ≠ h := replace_eq_fresh hr ▸ ne_fresh (contains_iff.mpr ⟨n, hn⟩)
  rw [hg.get?_replace hr hn] at hm
  by_cases hk : k = h
  · rw [if_pos hk] at hm
    injection hm with hm
    subst hm
    refine ⟨old, n, hn, by rw [if_pos rfl, hk], hne, ?_, ?_⟩
    · rw [substitute_of_not_mem (hg.not_mem_preds hn)]
    · rw [substitute_of_not_mem (hg.not_mem_succs hn)]
  · rw [if_neg hk] at hm
    split at hm
    · contradiction
    · next hko =>
        obtain ⟨m', hm', rfl⟩ := Option.map_eq_some_iff.mp hm
        exact ⟨k, m', hm', by rw [if_neg hko], hk, rfl, rfl⟩

end Replace

/-- A replacement keeps order and edges in agreement. -/
theorem Linked.replace {g g' : Graph} {old h : Handle} {layer : Layer} (hg : g.Linked)
    (hr : g.replace old layer = .ok (g', h)) : g'.Linked := by
  obtain ⟨n, _, hn, _, _, _, _⟩ := replace_cases hr
  have hne : old ≠ h := replace_eq_fresh hr ▸ ne_fresh (contains_iff.mpr ⟨n, hn⟩)
  have horder : g'.order = g.order.map fun x => if x = old then h else x := by
    rw [hg.order_replace hr, substitute_singleton]
  have hcontains : ∀ j, g.contains j = true →
      g'.contains (if j = old then h else j) = true := by
    intro j hj
    obtain ⟨m, hm⟩ := contains_iff.mp hj
    have hjh : j ≠ h := replace_eq_fresh hr ▸ ne_fresh hj
    rw [contains_iff, hg.get?_replace hr hn]
    by_cases hjo : j = old
    · simp [hjo]
    · simp [hjo, hjh, hm]
  refine ⟨⟨?_, ?_, ?_, ?_⟩, ?_⟩
  · rw [horder]
    refine hg.nodup.map_on fun x hx y hy hxy => ?_
    have hxh : x ≠ h := replace_eq_fresh hr ▸ ne_fresh (hg.mem_order.mp hx)
    have hyh : y ≠ h := replace_eq_fresh hr ▸ ne_fresh (hg.mem_order.mp hy)
    grind
  · intro k
    rw [horder, List.mem_map]
    constructor
    · rintro ⟨j, hj, rfl⟩
      exact hcontains j (hg.mem_order.mp hj)
    · intro hk
      obtain ⟨m, hm⟩ := contains_iff.mp hk
      obtain ⟨j, m', hm', hkj, _⟩ := hg.exists_get?_replace hr hn hm
      exact ⟨j, hg.mem_of_get? hm', hkj.symm⟩
  · intro a b m r hm hr'
    obtain ⟨i, m', hm', rfl, hi, _, hsuccs⟩ := hg.exists_get?_replace hr hn hm
    obtain ⟨j, r', hj', rfl, hj, hpreds, _⟩ := hg.exists_get?_replace hr hn hr'
    rw [hsuccs, hpreds, count_substitute_singleton hne (hg.not_mem_of_replace hr hm').2 hj,
      count_substitute_singleton hne (hg.not_mem_of_replace hr hj').1 hi,
      hg.mutual_count hm' hj']
  · intro k m p hm hp
    obtain ⟨j, m', hm', rfl, _, hpreds, _⟩ := hg.exists_get?_replace hr hn hm
    rw [hpreds, substitute_singleton] at hp
    obtain ⟨q, hq, rfl⟩ := List.mem_map.mp hp
    rw [Before, horder]
    exact (hg.forward hm' hq).map fun x => if x = old then h else x
  · intro k m s hm hs
    obtain ⟨j, m', hm', _, _, _, hsuccs⟩ := hg.exists_get?_replace hr hn hm
    rw [hsuccs, substitute_singleton] at hs
    obtain ⟨t, ht, rfl⟩ := List.mem_map.mp hs
    exact hcontains t (hg.succ_live hm' ht)

end Graph

end NeuralC
