import NeuralC.Proofs.Graph.Calls
import NeuralC.Proofs.Graph.Verify

/-!
# NeuralC.Proofs.Graph.Histories

Every graph that edits can make.  A history is a list of calls with any
arguments, handles that were deleted or never given out among them; a call that
is refused is part of it too.  `WellFormed.apply` is what one call keeps, and
`wellFormed_afterAll` what a whole history keeps.

`Grown` adds changes of nodes in place, of the kinds that are allowed, and keeps the
handles that were given out; graphs that are `Reachable` or `Evolved` differ in the
changes.
-/

namespace NeuralC

namespace Graph

/-! ## One edit -/

theorem wellFormed_empty : Graph.empty.WellFormed where
  nodup := List.nodup_nil
  mem_order := by simp [Graph.empty, contains, get?]
  succ_live := by simp [Graph.empty, get?]
  mutual_count := by simp [Graph.empty, get?]
  forward := by simp [Graph.empty, get?]
  first_isInput := by simp [Graph.empty, input?]

/-- Adding an input to a well-formed graph keeps it well-formed. -/
theorem WellFormed.addInput {g g' : Graph} {layer : Layer} {h : Handle} (hg : g.WellFormed)
    (hi : g.addInput layer = .ok (g', h)) : g'.WellFormed := by
  obtain ⟨ho, hinput, _, rfl⟩ := addInput_cases hi
  have hnone : ∀ k, g.get? k = none := by
    intro k
    cases hk : g.get? k with
    | none => rfl
    | some n =>
        have hm := hg.mem_of_get? hk
        rw [ho] at hm
        contradiction
  have hget : ∀ k, (g.allocate ⟨layer, none, [], []⟩ 0).get? k =
      if k = g.fresh then some ⟨layer, none, [], []⟩ else none := by
    intro k
    rw [get?_allocate, hnone]
  have horder : (g.allocate ⟨layer, none, [], []⟩ 0).order = [g.fresh] := by
    rw [allocate, ho]
    rfl
  -- The only node has no edges, so there is nothing to check about them.
  have hedges : ∀ {k n}, (g.allocate ⟨layer, none, [], []⟩ 0).get? k = some n →
      k = g.fresh ∧ n.layer.isInput = true ∧ n.preds = [] ∧ n.succs = [] := by
    intro k n hn
    rw [hget] at hn
    split at hn
    · next hk =>
        injection hn with hn
        subst hn
        exact ⟨hk, hinput, rfl, rfl⟩
    · contradiction
  refine ⟨⟨⟨?_, ?_, ?_, ?_⟩, ?_⟩, ?_⟩
  · rw [horder]
    exact List.nodup_singleton _
  · intro k
    rw [horder, contains_iff, hget]
    by_cases hk : k = g.fresh <;> simp [hk]
  · intro a b m n hm hn
    rw [(hedges hm).2.2.2, (hedges hn).2.2.1]
    rfl
  · intro k n p hn hp
    rw [(hedges hn).2.2.1] at hp
    contradiction
  · intro k n s hn hs
    rw [(hedges hn).2.2.2] at hs
    contradiction
  · intro k n _ hn
    exact (hedges hn).2.1

/-- Nothing is inserted in front of the first node. -/
theorem input?_insert {g g' : Graph} {layer : Layer} {preds succs : List Handle} {h : Handle}
    (hi : g.insert layer preds succs = .ok (g', h)) : g'.input? = g.input? := by
  obtain ⟨_, _, hpos, _, _⟩ := insert_cases hi
  have hle := insertionPoint_le_length g succs
  rw [input?, input?, order_insert hi]
  cases ho : g.order with
  | nil =>
      rw [ho, List.length_nil] at hle
      omega
  | cons x xs =>
      obtain ⟨place, hplace⟩ := Nat.exists_eq_succ_of_ne_zero (Nat.ne_of_gt hpos)
      rw [hplace, List.take_succ_cons]
      rfl

/-- Inserting keeps a graph well-formed. -/
theorem WellFormed.insert {g g' : Graph} {layer : Layer} {preds succs : List Handle} {h : Handle}
    (hg : g.WellFormed) (hi : g.insert layer preds succs = .ok (g', h)) : g'.WellFormed := by
  refine ⟨hg.toLinked.insert hi, fun {k n} hk hn => ?_⟩
  rw [input?_insert hi] at hk
  have hm := (position?_eq_some.mp (position?_eq_zero.mpr hk)).1
  have hkh : k ≠ h := by
    obtain ⟨_, hfresh, _⟩ := insert_cases hi
    exact hfresh ▸ ne_fresh (hg.mem_order.mp hm)
  rw [get?_insert hi, if_neg hkh] at hn
  obtain ⟨m, hm, rfl⟩ := Option.map_eq_some_iff.mp hn
  show m.layer.isInput = true
  exact hg.first_isInput hk hm

/-- The first node is never deleted. -/
theorem input?_delete {g g' : Graph} {h : Handle} (hd : g.delete h = .ok g') :
    g'.input? = g.input? := by
  obtain ⟨_, _, _, hfirst, _⟩ := delete_cases hd
  rw [input?, order_delete hd]
  exact head?_erase_of_ne hfirst

/-- Deleting keeps a graph well-formed. -/
theorem WellFormed.delete {g g' : Graph} {h : Handle} (hg : g.WellFormed)
    (hd : g.delete h = .ok g') : g'.WellFormed := by
  refine ⟨hg.toLinked.delete hd, fun {k n} hk hn => ?_⟩
  obtain ⟨r, hr, _⟩ := delete_cases hd
  rw [input?_delete hd] at hk
  rw [hg.get?_delete hd hr] at hn
  split at hn
  · contradiction
  · obtain ⟨m, hm, rfl⟩ := Option.map_eq_some_iff.mp hn
    show m.layer.isInput = true
    exact hg.first_isInput hk hm

/-- Replacing keeps a graph well-formed: it inserts and deletes. -/
theorem WellFormed.replace {g g' : Graph} {old h : Handle} {layer : Layer} (hg : g.WellFormed)
    (hr : g.replace old layer = .ok (g', h)) : g'.WellFormed := by
  refine ⟨hg.toLinked.replace hr, fun {k n} hk hn => ?_⟩
  obtain ⟨r, place, hold, hplace, hinput, hfresh, _⟩ := replace_cases hr
  rw [hg.get?_replace hr hold] at hn
  rw [input?, hg.order_replace hr, substitute_singleton, List.head?_map] at hk
  obtain ⟨j, hj, hjk⟩ := Option.map_eq_some_iff.mp hk
  have hjm := (position?_eq_some.mp (position?_eq_zero.mpr hj)).1
  by_cases hjo : j = old
  · -- The first node itself has been replaced.
    subst hjo
    rw [if_pos rfl] at hjk
    rw [if_pos hjk.symm] at hn
    injection hn with hn
    subst hn
    rw [position?_eq_zero.mpr hj] at hplace
    injection hplace with hplace
    exact hinput hplace.symm
  · rw [if_neg hjo] at hjk
    have hkh : k ≠ h := hjk ▸ hfresh ▸ ne_fresh (hg.mem_order.mp hjm)
    rw [if_neg hkh, if_neg (hjk ▸ hjo)] at hn
    obtain ⟨m, hm, rfl⟩ := Option.map_eq_some_iff.mp hn
    show m.layer.isInput = true
    exact hg.first_isInput (hjk ▸ hj) hm

end Graph

/-! ## Histories -/

/-- What is at work after a call, whether it was refused or not. -/
def Edit.after (e : Edit) (w : Workspace) : Workspace :=
  match e.call w with
  | .ok _ w' | .error _ w' => w'

/-- What a call that is not refused has done, and the handle it gives out. -/
theorem Edit.apply_cases {g g' : Graph} {e : Edit} {h : Option Handle}
    (he : e.apply g = .ok (g', h)) :
    (∃ layer k, g.addInput layer = .ok (g', k) ∧ h = some k) ∨
      (∃ layer preds succs k, g.insert layer preds succs = .ok (g', k) ∧ h = some k) ∨
      (∃ k, g.delete k = .ok g' ∧ h = none) ∨
      ∃ old layer k, g.replace old layer = .ok (g', k) ∧ h = some k := by
  cases e with
  | addInput layer =>
      obtain ⟨⟨_, k⟩, hk, hp⟩ := map_eq_ok.mp he
      cases hp
      exact .inl ⟨layer, k, hk, rfl⟩
  | insert layer preds succs =>
      obtain ⟨⟨_, k⟩, hk, hp⟩ := map_eq_ok.mp he
      cases hp
      exact .inr (.inl ⟨layer, preds, succs, k, hk, rfl⟩)
  | delete k =>
      obtain ⟨_, hk, hp⟩ := map_eq_ok.mp he
      cases hp
      exact .inr (.inr (.inl ⟨k, hk, rfl⟩))
  | replace old layer =>
      obtain ⟨⟨_, k⟩, hk, hp⟩ := map_eq_ok.mp he
      cases hp
      exact .inr (.inr (.inr ⟨old, layer, k, hk, rfl⟩))

/-- One call keeps a graph well formed. -/
theorem Graph.WellFormed.apply {g g' : Graph} {e : Edit} {h : Option Handle}
    (hg : g.WellFormed) (he : e.apply g = .ok (g', h)) : g'.WellFormed := by
  obtain ⟨_, _, hk, _⟩ | ⟨_, _, _, _, hk, _⟩ | ⟨_, hk, _⟩ | ⟨_, _, _, hk, _⟩ :=
    Edit.apply_cases he
  · exact hg.addInput hk
  · exact hg.insert hk
  · exact hg.delete hk
  · exact hg.replace hk

/-- A call changes the graph as its edit does, or nothing. -/
theorem Edit.after_cases (e : Edit) {w : Workspace} (hg : w.graph.Linked) :
    e.after w = w ∨ ∃ h, e.call w = .ok h (e.after w) := by
  unfold after
  cases he : e.call w with
  | ok h w' => exact .inr ⟨h, rfl⟩
  | error f w' => exact .inl (call_eq_error hg he).2

/-- One call keeps the graph at work well-formed, whether it succeeds or not. -/
theorem Edit.wellFormed_after {w : Workspace} (hw : w.graph.WellFormed) (e : Edit) :
    (e.after w).graph.WellFormed := by
  rcases e.after_cases hw.toLinked with hsame | ⟨h, hcall⟩
  · rw [hsame]
    exact hw
  · exact hw.apply (call_eq_ok hw.toLinked hcall).1

/-- What is at work after calls on a workspace. -/
def Workspace.afterAll (w : Workspace) (es : List Edit) : Workspace :=
  es.foldl (fun w e => e.after w) w

/-- So does a list of calls, by induction on the list. -/
theorem Workspace.wellFormed_afterAll {w : Workspace} (hw : w.graph.WellFormed)
    (es : List Edit) : (w.afterAll es).graph.WellFormed := by
  induction es generalizing w with
  | nil => exact hw
  | cons e es ih => exact ih (e.wellFormed_after hw)

/-- What is at work after calls that start with the empty graph. -/
def history (s : Session) (es : List Edit) : Workspace := Workspace.afterAll ⟨Graph.empty, s⟩ es

/-- **Every history of edits leaves a well-formed graph.**  A call finds every
neighbour that it goes on to change, so that it is refused with a report before it
has changed anything, or does all it has to.  Verification never finds order, nodes
and edges in disagreement. -/
theorem wellFormed_history (s : Session) (es : List Edit) :
    let g := (history s es).graph
    g.WellFormed ∧
      (∀ h n, g.get? h = some n → ∀ p ∈ n.preds, g.contains p = true) ∧
      (∀ h, g.input? = some h →
        ∃ n, g.get? h = some n ∧ n.layer.isInput = true ∧ n.preds = []) ∧
      (∀ e f w, Edit.call e (history s es) = .error f w →
        (∃ d, f = .reported d) ∧ w = history s es) ∧
      (∀ name cause stage, g.verify = .error (.structural name cause stage) →
        cause.isDisagreement = false) := by
  have hg : (history s es).graph.WellFormed :=
    Workspace.wellFormed_afterAll Graph.wellFormed_empty es
  refine ⟨hg, fun h n hn p hp => hg.pred_live hn hp, fun h hh => ?_,
    fun e f w he => Edit.call_eq_error hg.toLinked he, fun name cause stage hv => ?_⟩
  · obtain ⟨n, hn⟩ := hg.exists_get? (Graph.position?_eq_some.mp
      (Graph.position?_eq_zero.mpr hh)).1
    exact ⟨n, hn, hg.first_isInput hh hn, hg.preds_first hh hn⟩
  · exact hg.isDisagreement_of_verify hv

/-- Calls that link two layers by parallel edges, delete one of them, and go on
with two calls that are refused. -/
def parallelEdges : List Edit := [
  .addInput (.source "x" [1, 2]),
  .insert ⟨"a", [[1, 2]], [[1, 2]], .float32, .flatten⟩ [0, 0] [],
  .insert ⟨"b", [[1, 2]], [[1, 2]], .float32, .flatten⟩ [1, 1] [],
  .delete 1,
  .delete 1,
  .delete 0]

theorem wellFormed_parallelEdges :
    (history {} parallelEdges).graph.order = [0, 2] ∧
      ((history {} parallelEdges).graph.get? 2).map Node.preds = some [0, 0, 0, 0] ∧
      (history {} parallelEdges).graph.WellFormed :=
  ⟨by decide, by decide, (wellFormed_history {} parallelEdges).1⟩

/-! ## Graphs in reach -/

/-- A graph that calls and some kinds of changes in place can make, with the handles that the
calls have given out. -/
inductive Grown (Allowed : (Node → Node) → Prop) : Graph → List Handle → Prop where
  | empty : Grown Allowed Graph.empty []
  | edit {g g' : Graph} {s s' : Session} {issued : List Handle} {e : Edit} {h : Option Handle} :
    Grown Allowed g issued → e.call ⟨g, s⟩ = .ok h ⟨g', s'⟩ →
    Grown Allowed g' (issued ++ h.toList)
  | change {g : Graph} {issued : List Handle} {f : Node → Node} (h : Handle) :
    Grown Allowed g issued → Allowed f → Grown Allowed (g.modify h f) issued

/-- The change leaves the edges of every node as they are. -/
def KeepsEdges (f : Node → Node) : Prop := ∀ n, (f n).preds = n.preds ∧ (f n).succs = n.succs

/-- The change leaves every input an input. -/
def KeepsInputs (f : Node → Node) : Prop :=
  ∀ n, n.layer.isInput = true → (f n).layer.isInput = true

/-- One call keeps edges and order in agreement, also where the first node is no input. -/
theorem Graph.Linked.apply {g g' : Graph} {e : Edit} {h : Option Handle} (hg : g.Linked)
    (he : e.apply g = .ok (g', h)) : g'.Linked := by
  obtain ⟨_, _, hk, _⟩ | ⟨_, _, _, _, hk, _⟩ | ⟨_, hk, _⟩ | ⟨_, _, _, hk, _⟩ :=
    Edit.apply_cases he
  · -- an input is added to the empty graph only, which has no first node
    obtain ⟨ho, _⟩ := addInput_cases hk
    have hw : g.WellFormed := ⟨hg, by simp [input?, ho]⟩
    exact (hw.addInput hk).toLinked
  · exact hg.insert hk
  · exact hg.delete hk
  · exact hg.replace hk

namespace Grown

variable {Allowed : (Node → Node) → Prop} {g : Graph} {issued : List Handle}

/-- Where more is allowed, more is in reach. -/
theorem mono {Allowed' : (Node → Node) → Prop} (hallowed : ∀ f, Allowed f → Allowed' f)
    (hg : Grown Allowed g issued) : Grown Allowed' g issued := by
  induction hg with
  | empty => exact .empty
  | edit _ he ih => exact ih.edit he
  | change h _ hf ih => exact ih.change h (hallowed _ hf)

/-- Edges and order agree in every graph that is grown, if changes in place keep edges. -/
theorem linked (hedges : ∀ f, Allowed f → KeepsEdges f) (hg : Grown Allowed g issued) :
    g.Linked := by
  induction hg with
  | empty => exact Graph.wellFormed_empty.toLinked
  | edit _ he ih => exact ih.apply (Edit.call_eq_ok ih he).1
  | change h _ hf ih => exact ih.modify (hedges _ hf)

/-- The first node stays an input. -/
theorem wellFormed (hedges : ∀ f, Allowed f → KeepsEdges f)
    (hinputs : ∀ f, Allowed f → KeepsInputs f) (hg : Grown Allowed g issued) : g.WellFormed := by
  induction hg with
  | empty => exact Graph.wellFormed_empty
  | edit _ he ih => exact ih.apply (Edit.call_eq_ok ih.toLinked he).1
  | change h _ hf ih =>
      refine ⟨ih.toLinked.modify (hedges _ hf), fun {k m} hk hm => ?_⟩
      rw [Graph.get?_modify] at hm
      split at hm
      · obtain ⟨n, hn, rfl⟩ := Option.map_eq_some_iff.mp hm
        exact hinputs _ hf n (ih.first_isInput hk hn)
      · exact ih.first_isInput hk hm

/-- Calls that are refused leave the graph as it is, so any list of calls goes on from it. -/
theorem exists_afterAll (hedges : ∀ f, Allowed f → KeepsEdges f) {w : Workspace}
    (hg : ∃ issued, Grown Allowed w.graph issued) (es : List Edit) :
    ∃ issued, Grown Allowed (w.afterAll es).graph issued := by
  induction es generalizing w with
  | nil => exact hg
  | cons e es ih =>
      refine ih (w := e.after w) ?_
      obtain ⟨issued, hg⟩ := hg
      rcases e.after_cases (hg.linked hedges) with hsame | ⟨h, hcall⟩
      · rw [hsame]
        exact ⟨issued, hg⟩
      · exact ⟨_, hg.edit hcall⟩

end Grown

/-- A graph that calls and changes of layers and records in place can make. -/
def Reachable (g : Graph) : Prop := ∃ issued, Grown KeepsEdges g issued

/-- A graph that calls and changes in place can make, where a change leaves edges as they are and
an input an input. -/
def Evolved (g : Graph) : Prop := ∃ issued, Grown (fun f => KeepsEdges f ∧ KeepsInputs f) g issued

/-- Edges and order agree in every graph in reach. -/
theorem Reachable.linked {g : Graph} (hr : Reachable g) : g.Linked := by
  obtain ⟨_, hg⟩ := hr
  exact hg.linked fun _ => id

/-- A history of calls stays in reach of the empty graph. -/
theorem reachable_history (s : Session) (es : List Edit) : Reachable (history s es).graph :=
  Grown.exists_afterAll (fun _ => id) ⟨[], .empty⟩ es

theorem evolved_history (s : Session) (es : List Edit) : Evolved (history s es).graph :=
  Grown.exists_afterAll (fun _ hf => hf.1) ⟨[], .empty⟩ es

/-- What evolves is in reach. -/
theorem Evolved.reachable {g : Graph} (he : Evolved g) : Reachable g := by
  obtain ⟨issued, hg⟩ := he
  exact ⟨issued, hg.mono fun _ hf => hf.1⟩

/-- A graph that evolves keeps an input in front. -/
theorem Evolved.wellFormed {g : Graph} (he : Evolved g) : g.WellFormed := by
  obtain ⟨_, hg⟩ := he
  exact hg.wellFormed (fun _ hf => hf.1) fun _ hf => hf.2

/-- A record may be set at any time. -/
theorem Evolved.setQuant {g : Graph} (he : Evolved g) (h : Handle) (q : Option QuantRecord) :
    Evolved (g.setQuant h q) := by
  obtain ⟨issued, hg⟩ := he
  exact ⟨issued, hg.change h ⟨fun _ => ⟨rfl, rfl⟩, fun _ => id⟩⟩

end NeuralC
