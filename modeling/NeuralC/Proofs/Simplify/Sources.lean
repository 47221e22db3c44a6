import NeuralC.Proofs.Simplify.Bypass

/-!
# NeuralC.Proofs.Simplify.Sources

Where operands lead back to when layers are taken out of a graph.  Of some layers
that stay, `Graph.sources` gives those that a node leads back to, operand by operand
and in order.  Taking out another layer does not change it (`Bypassed.sources_eq`), and
so the operands of a layer at the end of a run are the layers that stay to which its
operands led back at its start (`Shrinks.preds_eq`).
-/

namespace NeuralC

namespace Graph

/-- The layers of `kept` that a node leads back to in a number of steps, operand by
operand; the node itself when it is one. -/
def sourcesWithin (g : Graph) (kept : List Handle) : Nat → Handle → List Handle
  | 0, p => [p]
  | steps + 1, p =>
    if p ∈ kept then [p]
    else match g.get? p with
      | some n => n.preds.flatMap (g.sourcesWithin kept steps)
      | none => [p]

def sources (g : Graph) (kept : List Handle) (p : Handle) : List Handle :=
  g.sourcesWithin kept g.size p

section Sources

variable {g : Graph} {kept : List Handle} (hg : g.Sequenced)

include hg

/-- More steps than there are nodes in front of a node are not needed. -/
theorem sourcesWithin_eq {a b : Nat} {p : Handle} (hp : p ∈ g.order) (ha : g.order.idxOf p < a)
    (hb : g.order.idxOf p < b) : g.sourcesWithin kept a p = g.sourcesWithin kept b p := by
  induction a generalizing b p with
  | zero => omega
  | succ a ih =>
      cases b with
      | zero => omega
      | succ b =>
          rw [sourcesWithin, sourcesWithin]
          split
          · rfl
          · obtain ⟨n, hn⟩ := hg.exists_get? hp
            simp only [hn]
            refine List.flatMap_congr fun q hq => ?_
            obtain ⟨hqo, -, hlt⟩ := (before_iff_idxOf hg.nodup).mp (hg.forward hn hq)
            exact ih hqo (by omega) (by omega)

omit hg in
/-- A node that is kept is its own source. -/
theorem sources_of_mem {p : Handle} (hp : p ∈ kept) : g.sources kept p = [p] := by
  rw [sources]
  cases g.size with
  | zero => rfl
  | succ steps => rw [sourcesWithin, if_pos hp]

/-- The sources of a node that goes are those of its operands. -/
theorem sources_of_not_mem {p : Handle} {n : Node} (hp : p ∉ kept) (hn : g.get? p = some n) :
    g.sources kept p = n.preds.flatMap (g.sources kept) := by
  have hpo := hg.mem_of_get? hn
  have hlt : g.order.idxOf p < g.size := List.idxOf_lt_length_iff.mpr hpo
  obtain ⟨steps, hsize⟩ := Nat.exists_eq_succ_of_ne_zero (Nat.ne_zero_of_lt hlt)
  have hunfold : g.sources kept p = n.preds.flatMap (g.sourcesWithin kept steps) := by
    rw [sources, hsize, sourcesWithin, if_neg hp, hn]
  rw [hunfold]
  refine List.flatMap_congr fun q hq => ?_
  obtain ⟨hqo, -, hqp⟩ := (before_iff_idxOf hg.nodup).mp (hg.forward hn hq)
  exact sourcesWithin_eq hg hqo (by omega) (by omega)

end Sources

theorem flatMap_sources_of_subset {g : Graph} {kept ps : List Handle} (hps : ∀ p ∈ ps, p ∈ kept) :
    ps.flatMap (g.sources kept) = ps := by
  rw [List.flatMap_congr fun p hp => sources_of_mem (hps p hp)]
  exact List.flatMap_singleton' ps

end Graph

namespace Simplify

open NeuralC.Graph

/-- Substituting and then following is following with a detour. -/
theorem flatMap_substitute (h : Handle) (items xs : List Handle) (f : Handle → List Handle) :
    (substitute h items xs).flatMap f =
      xs.flatMap fun x => if x = h then items.flatMap f else f x := by
  induction xs with
  | nil => rfl
  | cons x xs ih =>
      rw [substitute_cons, List.flatMap_append, List.flatMap_cons, ih]
      split <;> simp

namespace Bypassed

variable {g g' : Graph} {h : Handle} {n : Node} {kept : List Handle} (hb : Bypassed g g' h n)
  (hg : g.Linked) (hh : h ∉ kept)

include hb hg hh

/-- Operands lead back to the same layers around the one that is taken out, where those
that stay do. -/
theorem flatMap_sources_of_forall {m : Node} (hsame : ∀ x ∈ m.preds ++ n.preds, x ≠ h →
      g'.sources kept x = g.sources kept x) :
    (substitute h n.preds m.preds).flatMap (g'.sources kept) =
      m.preds.flatMap (g.sources kept) := by
  rw [flatMap_substitute]
  refine List.flatMap_congr fun x hx => ?_
  split
  · next hxh =>
    rw [hxh, sources_of_not_mem hg.toSequenced hh hb.get?_gone]
    refine List.flatMap_congr fun y hy => hsame y (List.mem_append_right _ hy) ?_
    rintro rfl
    exact hg.not_mem_preds hb.get?_gone hy
  · next hxh => exact hsame x (List.mem_append_left _ hx) hxh

/-- A node that stays leads back to the same layers when another is taken out. -/
theorem sources_eq {k : Handle} {m : Node} (hk : k ≠ h) (hm : g.get? k = some m) :
    g'.sources kept k = g.sources kept k := by
  -- on the place of the node: whatever it reads, also around `h`, comes earlier
  induction hi : g.order.idxOf k using Nat.strongRecOn generalizing k m with
  | ind i ih =>
      have hearlier : ∀ {a x : Handle} {r : Node}, g.get? a = some r → x ∈ r.preds →
          x ∈ g.order ∧ g.order.idxOf x < g.order.idxOf a := by
        intro a x r hr hx
        obtain ⟨hxo, -, hlt⟩ := (before_iff_idxOf hg.nodup).mp (hg.forward hr hx)
        exact ⟨hxo, hlt⟩
      by_cases hkept : k ∈ kept
      · rw [sources_of_mem hkept, sources_of_mem hkept]
      · obtain ⟨m', hm', -, hpreds, -⟩ := hb.kept hk hm
        rw [sources_of_not_mem hb.linked.toSequenced hkept hm',
          sources_of_not_mem hg.toSequenced hkept hm, hpreds]
        by_cases hread : h ∈ m.preds
        · refine hb.flatMap_sources_of_forall hg hh fun x hx hxh => ?_
          obtain ⟨hxo, hlt⟩ : x ∈ g.order ∧ g.order.idxOf x < g.order.idxOf k := by
            rcases List.mem_append.mp hx with hx | hx
            · exact hearlier hm hx
            · have hfirst := hearlier hb.get?_gone hx
              exact ⟨hfirst.1, hfirst.2.trans (hearlier hm hread).2⟩
          obtain ⟨r, hr⟩ := hg.exists_get? hxo
          exact ih _ (hi ▸ hlt) hxh hr rfl
        · rw [substitute_of_not_mem hread]
          refine List.flatMap_congr fun x hx => ?_
          obtain ⟨hxo, hlt⟩ := hearlier hm hx
          obtain ⟨r, hr⟩ := hg.exists_get? hxo
          exact ih _ (hi ▸ hlt) (fun hxh => hread (hxh ▸ hx)) hr rfl

/-- So do the operands of a node that stays. -/
theorem flatMap_sources_eq {k : Handle} {m m' : Node} (hk : k ≠ h) (hm : g.get? k = some m)
    (hm' : g'.get? k = some m') :
    m'.preds.flatMap (g'.sources kept) = m.preds.flatMap (g.sources kept) := by
  obtain ⟨r, hr, -, hpreds, -⟩ := hb.kept hk hm
  cases hm'.symm.trans hr
  rw [hpreds]
  refine hb.flatMap_sources_of_forall hg hh fun x hx hxh => ?_
  obtain ⟨r, hr⟩ : ∃ r, g.get? x = some r := by
    rcases List.mem_append.mp hx with hx | hx
    · exact contains_iff.mp (hg.pred_live hm hx)
    · exact contains_iff.mp (hg.pred_live hb.get?_gone hx)
  exact hb.sources_eq hg hh hxh hr

end Bypassed

namespace Shrinks

variable {g g' : Graph} {hs : List Handle}

/-- A graph that shrinks keeps the order of what is left. -/
theorem order_eq (hsh : Shrinks g g' hs) (hg : g.Linked) :
    g'.order = g.order.filter (· ∉ hs) := by
  induction hsh with
  | nil g => simp
  | @cons g g₁ g' h n hs hb _ ih =>
      rw [ih hb.linked, hb.order_eq, hg.nodup.erase_eq_filter, List.filter_filter]
      refine List.filter_congr fun k _ => ?_
      by_cases hk : k = h <;> simp [hk]

/-- The operands of a node that stays, all taken out, are the layers that stay to which
they led back. -/
theorem flatMap_sources_eq (hsh : Shrinks g g' hs) (hg : g.Linked) {kept : List Handle}
    (hkept : ∀ h ∈ hs, h ∉ kept) {k : Handle} {m' : Node} (hm' : g'.get? k = some m') :
    ∃ m, g.get? k = some m ∧
      m'.preds.flatMap (g'.sources kept) = m.preds.flatMap (g.sources kept) := by
  induction hsh with
  | nil g => exact ⟨m', hm', rfl⟩
  | @cons g g₁ g' h n hs hb hsh ih =>
      obtain ⟨hh, hkept⟩ := List.forall_mem_cons.mp hkept
      obtain ⟨m₁, hm₁, heq⟩ := ih hb.linked hkept hm'
      obtain ⟨hk, m, hm, -⟩ := hb.origin hg hm₁
      exact ⟨m, hm, heq.trans (hb.flatMap_sources_eq hg hh hk hm hm₁)⟩

/-- What is left reads the sources of what it read. -/
theorem preds_eq (hsh : Shrinks g g' hs) (hg : g.Linked) {k : Handle} {m' : Node}
    (hm' : g'.get? k = some m') :
    ∃ m, g.get? k = some m ∧ m'.preds = m.preds.flatMap (g.sources g'.order) := by
  have hgone : ∀ h ∈ hs, h ∉ g'.order := by
    intro h hh hmem
    rw [hsh.order_eq hg, List.mem_filter] at hmem
    simp [hh] at hmem
  obtain ⟨m, hm, heq⟩ := hsh.flatMap_sources_eq hg hgone hm'
  have hlinked := hsh.linked hg
  rw [flatMap_sources_of_subset fun p hp => (hlinked.forward hm' hp).left_mem] at heq
  exact ⟨m, hm, heq⟩

end Shrinks

end Simplify

end NeuralC
