import NeuralC.Proofs.Graph.Histories

/-!
# NeuralC.Proofs.Graph.Substitution

Deletion and replacement are substitutions, on every graph in reach.  An edit
visits the neighbours of its node one edge at a time; what it leaves behind is
the graph with the node's handle replaced everywhere, by the node's own
neighbours or by the handle of the new node.

A graph in reach is kept here with the handles that were given out on the way
(`Issued`).  They are the numbers below the next handle, each once
(`Issued.eq_range`), so that a new handle was never in use before.
-/

namespace NeuralC

/-! ## Handles given out -/

/-- A graph that calls and changes of layers and records in place can make, with the handles that
the calls have given out. -/
abbrev Issued : Graph → List Handle → Prop := Grown KeepsEdges

namespace Graph

theorem fresh_allocate (g : Graph) (n : Node) (place : Nat) :
    (g.allocate n place).fresh = g.fresh + 1 := by
  simp [fresh, allocate]

theorem fresh_modify (g : Graph) (h : Handle) (f : Node → Node) :
    (g.modify h f).fresh = g.fresh := by
  simp [fresh, modify]

/-- Deleting gives no handle back. -/
theorem fresh_delete {g g' : Graph} {h : Handle} (hd : g.delete h = .ok g') :
    g'.fresh = g.fresh := by
  obtain ⟨n, _, _, _, rfl⟩ := delete_cases hd
  rw [splicePreds, fresh_foldl_modify, spliceSuccs, fresh_foldl_modify, fresh_vacate]

/-- Replacing uses up one handle. -/
theorem fresh_replace {g g' : Graph} {old h : Handle} {layer : Layer}
    (hr : g.replace old layer = .ok (g', h)) : g'.fresh = g.fresh + 1 := by
  obtain ⟨n, place, _, _, _, _, rfl⟩ := replace_cases hr
  rw [splicePreds, fresh_foldl_modify, spliceSuccs, fresh_foldl_modify, fresh_allocate,
    fresh_vacate]

end Graph

/-- A call gives out the next handle or none. -/
theorem Edit.range_fresh {g g' : Graph} {e : Edit} {h : Option Handle}
    (he : e.apply g = .ok (g', h)) :
    List.range g'.fresh = List.range g.fresh ++ h.toList := by
  obtain ⟨_, k, hk, rfl⟩ | ⟨_, _, _, k, hk, rfl⟩ | ⟨_, hk, rfl⟩ | ⟨_, _, k, hk, rfl⟩ :=
    Edit.apply_cases he
  · obtain ⟨_, _, hfresh, rfl⟩ := Graph.addInput_cases hk
    rw [Graph.fresh_allocate, List.range_succ, hfresh, Option.toList_some]
  · obtain ⟨_, hfresh, _⟩ := Graph.insert_cases hk
    rw [Graph.fresh_insert hk, List.range_succ, hfresh, Option.toList_some]
  · rw [Graph.fresh_delete hk, Option.toList_none, List.append_nil]
  · rw [Graph.fresh_replace hk, List.range_succ, Graph.replace_eq_fresh hk, Option.toList_some]

/-- Handles are given out in order, each once. -/
theorem Issued.eq_range {g : Graph} {issued : List Handle} (hi : Issued g issued) :
    issued = List.range g.fresh := by
  induction hi with
  | empty => rfl
  | edit hi he ih =>
      rw [ih, Edit.range_fresh (Edit.call_eq_ok (hi.linked fun _ => id) he).1]
  | change h _ _ ih => rw [ih, Graph.fresh_modify]

/-- The next handle has not been issued before. -/
theorem Issued.fresh_notMem {g : Graph} {issued : List Handle} (hi : Issued g issued) :
    g.fresh ∉ issued := by
  rw [hi.eq_range, List.mem_range]
  omega

/-! ## Edits as substitutions -/

/-- **Deletion and replacement are exact substitutions.**  A node other than the first can be
deleted: it leaves the order of the others as it was, and its place in every list is taken by its
own list.  A node that is replaced gives its place in the order, its record and all of its edges to
a handle that was never given out before.  The calls that do this edge by edge, in place, come to
the same graphs. -/
theorem edits_substitute {g : Graph} {issued : List Handle} (hi : Issued g issued) :
    (∀ h n, g.get? h = some n → g.input? ≠ some h → ∃ g', g.delete h = .ok g' ∧
      (∀ s, (Edit.delete h).call ⟨g, s⟩ = .ok none ⟨g', s⟩) ∧
      g'.order = g.order.filter (· ≠ h) ∧
      ∀ k, g'.get? k = if k = h then none else (g.get? k).map fun m =>
        { m with preds := substitute h n.preds m.preds
                 succs := substitute h n.succs m.succs }) ∧
    ∀ old n layer g' h, g.get? old = some n → g.replace old layer = .ok (g', h) →
      (∀ s, (Edit.replace old layer).call ⟨g, s⟩ = .ok (some h) ⟨g', s⟩) ∧
      h ∉ issued ∧ g'.order = substitute old [h] g.order ∧
      ∀ k, g'.get? k =
        if k = h then some ⟨layer, n.quant, substitute old [h] n.preds, substitute old [h] n.succs⟩
        else if k = old then none else (g.get? k).map fun m =>
          { m with preds := substitute old [h] m.preds
                   succs := substitute old [h] m.succs } := by
  have hg : g.Linked := hi.linked fun _ => id
  constructor
  · intro h n hn hfirst
    obtain ⟨g', hd⟩ := Graph.exists_delete (hg.mem_of_get? hn) hn hfirst
    refine ⟨g', hd, fun s => ?_, ?_, hg.get?_delete hd hn⟩
    · rw [Edit.call_apply _ hg, Edit.apply, hd]
      rfl
    rw [Graph.order_delete hd, hg.nodup.erase_eq_filter]
    simp [bne, beq_eq_decide]
  · intro old n layer g' h hn hr
    refine ⟨fun s => ?_, ?_, hg.order_replace hr, fun k => ?_⟩
    · rw [Edit.call_apply _ hg, Edit.apply, hr]
      rfl
    · rw [Graph.replace_eq_fresh hr]
      exact hi.fresh_notMem
    · -- the node reads neither itself nor is read by itself, so its own lists stay
      rw [substitute_of_not_mem (hg.not_mem_preds hn), substitute_of_not_mem (hg.not_mem_succs hn)]
      exact hg.get?_replace hr hn k

/-- A layer that passes two numbers on. -/
def passing (name : String) (kind : LayerKind) : Layer :=
  ⟨name, [[1, 2]], [[1, 2]], .float32, kind⟩

/-- The graph of two parallel edges behind two parallel edges. -/
def doubled : Graph where
  slots := [
    some ⟨.source "x" [1, 2], none, [], [1, 1]⟩,
    some ⟨passing "a" .flatten, none, [0, 0], [2, 2]⟩,
    some ⟨passing "b" .flatten, none, [1, 1], []⟩]
  order := [0, 1, 2]

theorem issued_doubled : Issued doubled [0, 1, 2] :=
  ((Grown.empty.edit (s := {}) (e := .addInput (.source "x" [1, 2])) rfl).edit
    (s := {}) (e := .insert (passing "a" .flatten) [0, 0] []) rfl).edit
    (s := {}) (e := .insert (passing "b" .flatten) [1, 1] []) rfl

/-- With two edges on either side of a node, deleting it leaves four and replacing it two. -/
theorem substitute_doubled :
    (∃ g', doubled.delete 1 = .ok g' ∧ g'.order = [0, 2] ∧
      (g'.get? 0).map Node.succs = some [2, 2, 2, 2] ∧
      (g'.get? 2).map Node.preds = some [0, 0, 0, 0]) ∧
    ∃ g', doubled.replace 1 (passing "c" .identity) = .ok (g', 3) ∧ 3 ∉ [0, 1, 2] ∧
      g'.order = [0, 3, 2] ∧ (g'.get? 0).map Node.succs = some [3, 3] ∧
      (g'.get? 2).map Node.preds = some [3, 3] := by
  obtain ⟨hdelete, hreplace⟩ := edits_substitute issued_doubled
  constructor
  · obtain ⟨g', hd, -, horder, hget⟩ := hdelete 1 _ rfl (by decide)
    refine ⟨g', hd, ?_, ?_, ?_⟩
    · rw [horder]
      decide
    · rw [hget]
      decide
    · rw [hget]
      decide
  · have hr : ∃ g', doubled.replace 1 (passing "c" .identity) = .ok (g', 3) := ⟨_, rfl⟩
    obtain ⟨g', hr⟩ := hr
    obtain ⟨-, hnew, horder, hget⟩ := hreplace 1 _ _ _ _ rfl hr
    refine ⟨g', hr, hnew, ?_, ?_, ?_⟩
    · rw [horder]
      decide
    · rw [hget]
      decide
    · rw [hget]
      decide

end NeuralC
